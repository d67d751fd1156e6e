import ChaosForger.Search
import ChaosForger.Loop
import ChaosForger.Libc

/-!
# ChaosForger.Http

The feed-based HTTP/1.1 response parser of `http_socket.cpp`: a state machine
one feeds bytes into, with Content-Length, chunked and EOF framing.

Layout of the module:

* **data** — `HttpResponse` and `HttpResponseParser` with its `Limits`,
  `State` and `Framing`;
* **header phase** — `parseStatusLine`, `parseHeaders` and `enterBody`, the
  header arm of `step`;
* **body phase** — `bodyStepContentLength` and `bodyStepChunked`, the latter
  over the loop `chunkLoop`;
* **feed** — `step`, `feed` and `feedAll`, a run of feeds.

A function that returns `bool` and mutates the parser becomes one from the
parser to the parser and the Boolean.  `std::string` is a byte list, `size_t`
is `Nat`, except in the two places where the 64-bit wrap can be observed: a
difference of positions (`subSize`) and the sum compared with the body limit.
-/

namespace ChaosForger

open Search Libc

/-! ## Data -/

/-- A parsed response. -/
structure HttpResponse where
  status : Nat := 0
  statusText : List UInt8 := []
  body : List UInt8 := []
  deriving DecidableEq, Repr

namespace HttpResponse

def ok (r : HttpResponse) : Bool := 200 ≤ r.status && r.status < 300

end HttpResponse

namespace HttpResponseParser

/-- Size limits; each is a `size_t`. -/
structure Limits where
  maxBodyBytes : Nat := 16 * 1024 * 1024
  maxHeaderBytes : Nat := 64 * 1024
  maxChunkLineBytes : Nat := 1024
  maxBodyBytes_lt : maxBodyBytes < 2 ^ 64 := by decide
  maxHeaderBytes_lt : maxHeaderBytes < 2 ^ 64 := by decide
  maxChunkLineBytes_lt : maxChunkLineBytes < 2 ^ 64 := by decide
  deriving DecidableEq, Repr

inductive State where
  | statusLine | headers | bodyContentLength | bodyChunked | bodyEof | done | error
  deriving DecidableEq, Repr

inductive Framing where
  | none | contentLength | chunked | eof
  deriving DecidableEq, Repr

end HttpResponseParser

open HttpResponseParser in
/-- The incremental response parser. -/
structure HttpResponseParser where
  /-- unconsumed input -/
  buf : List UInt8 := []
  state : State := .statusLine
  resp : HttpResponse := {}
  error : List UInt8 := []
  limits : Limits := {}
  allowEofTermination : Bool := true
  /-- running total of the trailer section -/
  trailerBytes : Nat := 0
  framing : Framing := .none
  contentLength : Nat := 0
  chunkStarted : Bool := false
  chunkRemaining : Nat := 0
  chunkTrailerDone : Bool := false
  deriving DecidableEq, Repr

namespace HttpResponseParser

/-- The constructor. -/
def new (allowEofTermination : Bool) (limits : Limits) : HttpResponseParser :=
  { limits, allowEofTermination }

def done (p : HttpResponseParser) : Bool := p.state = .done

def failed (p : HttpResponseParser) : Bool := p.state = .error

/-- Enter the error state; the first message stays. -/
def fail (p : HttpResponseParser) (msg : List UInt8) : HttpResponseParser × Bool :=
  (if p.state ≠ .error then { p with state := .error, error := msg } else p, false)

/-- The first 64 bytes of a text, as the messages quote them. -/
def quoted (s : List UInt8) : List UInt8 := lit "'" ++ s.take 64 ++ lit "'"

/-- Unsigned difference of two `size_t` positions. -/
def subSize (a b : Nat) : Nat := if b ≤ a then a - b else a + 2 ^ 64 - b

/-! ## Header phase -/

/-- Strict status line: `HTTP/1.x <SP> <3-digit> <SP> reason`. -/
def parseStatusLine (p : HttpResponseParser) (_headerEnd : Nat) : HttpResponseParser × Bool :=
  let firstLineEnd := (find crlf p.buf).getD p.buf.length
  let line := p.buf.take firstLineEnd
  if line.take 5 ≠ lit "HTTP/" then
    p.fail (lit "malformed status line (missing HTTP/ prefix): " ++ quoted line)
  else if (line.drop 5).take 4 ≠ lit "1.0 " ∧ (line.drop 5).take 4 ≠ lit "1.1 " then
    p.fail (lit "unsupported HTTP version in status line: " ++ quoted line)
  else if line.length < 12 ∨ ¬ (isdigit (line.getD 9 0) ∧ isdigit (line.getD 10 0) ∧
      isdigit (line.getD 11 0)) then
    p.fail (lit "malformed status code in status line: " ++ quoted line)
  else
    let p := { p with resp.status := ((line.getD 9 0).toNat - 48) * 100 +
      ((line.getD 10 0).toNat - 48) * 10 + ((line.getD 11 0).toNat - 48) }
    if 12 < line.length ∧ line.getD 12 0 ≠ 32 then
      p.fail (lit "malformed status line: " ++ quoted line)
    else
      -- skip the single SP before the reason phrase
      let pos := if 12 < line.length then 13 else 12
      ({ p with resp.statusText := line.drop pos }, true)

def isOws (c : UInt8) : Bool := c == 32 || c == 9

/-- A header value without the spaces and tabs around it. -/
def trimOws (value : List UInt8) : List UInt8 :=
  ((value.dropWhile isOws).reverse.dropWhile isOws).reverse

/-- Case-insensitive comparison of a field name. -/
def ieq (a b : List UInt8) : Bool := a.map tolower = b.map tolower

/-- One round of the header loop: the line may set the framing. -/
def parseHeaderLine (p : HttpResponseParser) (line : List UInt8) : HttpResponseParser × Bool :=
  match find [58] line with
  | none | some 0 => (p, true)  -- tolerate junk lines
  | some colon =>
      let name := line.take colon
      let value := trimOws (line.drop (colon + 1))
      if ieq name (lit "content-length") then
        if p.framing = .chunked then (p, true)  -- chunked wins
        else
          let (v, endp) := strtoull value 10
          if endp = 0 ∨ cstrAt value endp ≠ 0 then
            p.fail (lit "malformed Content-Length value: " ++ quoted value)
          else if p.limits.maxBodyBytes < v then
            p.fail (lit "Content-Length " ++ decimal v ++ lit " exceeds limit")
          else ({ p with framing := .contentLength, contentLength := v }, true)
      else if ieq name (lit "transfer-encoding") then
        if (find (lit "chunked") value).isSome then ({ p with framing := .chunked }, true)
        else (p, true)
      else (p, true)

/-- The header loop over the lines of the header text. -/
def parseHeaderLines (p : HttpResponseParser) : List (List UInt8) → HttpResponseParser × Bool
  | [] => (p, true)
  | line :: lines =>
      match p.parseHeaderLine line with
      | (p, true) => p.parseHeaderLines lines
      | (p, false) => (p, false)

/-- Read the framing off the header lines between the status line and
`headerEnd`.  The length of the header text is a difference of positions, so
it wraps when the status line ends at `headerEnd`. -/
def parseHeaders (p : HttpResponseParser) (headerEnd : Nat) : HttpResponseParser × Bool :=
  let firstLineEnd := (find crlf p.buf).getD p.buf.length
  let headers :=
    (p.buf.drop (firstLineEnd + 2)).take (subSize headerEnd (firstLineEnd + 2))
  parseHeaderLines { p with framing := .none } (crlfLines headers)

/-- The status line, then the headers. -/
def parseHead (p : HttpResponseParser) (headerEnd : Nat) : HttpResponseParser × Bool :=
  match p.parseStatusLine headerEnd with
  | (p, false) => (p, false)
  | (p, true) => p.parseHeaders headerEnd

/-- Enter the body phase with the bytes left after the header block. -/
def selectBody (p : HttpResponseParser) (headerEnd : Nat) :
    Except (HttpResponseParser × Bool) HttpResponseParser :=
  let p := { p with buf := p.buf.drop (headerEnd + 4) }
  match p.framing with
  | .contentLength => .ok { p with state := .bodyContentLength }
  | .chunked => .ok { p with state := .bodyChunked }
  | .none | .eof =>
      if p.allowEofTermination then .ok { p with state := .bodyEof }
      else .error (p.fail (lit "response has neither Content-Length nor chunked framing"))

/-- The header arm of `step`: an early return, or the parser at the start of
the body.  In a body state there is nothing to do. -/
def enterBody (p : HttpResponseParser) : Except (HttpResponseParser × Bool) HttpResponseParser :=
  if p.state = .statusLine ∨ p.state = .headers then
    match find blankLine p.buf with
    | none => .error (p, true)  -- need more bytes
    | some headerEnd =>
        match p.parseHead headerEnd with
        | (p, false) => .error (p, false)
        | (p, true) => p.selectBody headerEnd
  else .ok p

/-! ## Body phase -/

def bodyStepContentLength (p : HttpResponseParser) : HttpResponseParser × Bool :=
  let needed := p.contentLength
  if p.buf.length < needed then (p, true)  -- need more bytes
  else
    let p := { p with resp.body := p.buf.take needed, buf := p.buf.drop needed }
    if p.buf = [] then ({ p with state := .done }, true)
    else p.fail (lit "unexpected extra bytes after Content-Length body (" ++
      decimal p.buf.length ++ lit ")")

/-- Where a call of the chunk decoder ends: at one of its "need more bytes"
exits, with the response complete, or with an error. -/
inductive ChunkExit where
  | needSizeLine | needTrailers | needPayload | needCrlf | complete | failed
  deriving DecidableEq, Repr

/-- An early return with an error. -/
def failExit (p : HttpResponseParser) (msg : List UInt8) : HttpResponseParser × ChunkExit :=
  ((p.fail msg).1, .failed)

/-- One round of the trailer loop at offset `tpos` of the buffer. -/
def trailerPass : HttpResponseParser × Nat →
    Pass (HttpResponseParser × Nat) (HttpResponseParser × ChunkExit)
  | (p, tpos) =>
      match find crlf (p.buf.drop tpos) with
      | none =>
          if p.limits.maxChunkLineBytes < p.buf.length then
            .exit (p.failExit (lit "trailer section exceeds limit"))
          else .exit (p, .needTrailers)
      | some len =>
          let teol := tpos + len
          let p := { p with trailerBytes := p.trailerBytes + (teol + 2 - tpos) }
          if p.limits.maxChunkLineBytes < p.trailerBytes then
            .exit (p.failExit (lit "trailer section exceeds limit"))
          else if (p.buf.drop tpos).take len = [] then  -- blank line terminates trailers
            .exit ({ p with chunkTrailerDone := true, buf := p.buf.drop (teol + 2), state := .done },
              .complete)
          else .again (p, teol + 2)

theorem trailerPass_decreasing (s s' : HttpResponseParser × Nat) (h : trailerPass s = .again s') :
    s'.1.buf.length - s'.2 < s.1.buf.length - s.2 := by
  obtain ⟨p, tpos⟩ := s
  rw [trailerPass] at h
  split at h
  · split at h <;> contradiction
  · next len hf =>
      have hlen := find_add_length_le hf
      rw [List.length_drop, length_crlf] at hlen
      dsimp only at h
      split at h
      · contradiction
      · split at h
        · contradiction
        · rw [Pass.again.injEq] at h
          subst h
          dsimp only
          omega

/-- The trailer loop: line by line until the blank line. -/
def trailerLoop : Loop (HttpResponseParser × Nat) (HttpResponseParser × ChunkExit) where
  body := trailerPass
  measure s := s.1.buf.length - s.2
  decreasing := trailerPass_decreasing

/-- Read the chunk-size line `"<hex>[;extensions]\r\n"`: a return, or the
parser with the chunk started.  A size of zero is the last chunk, whose
trailers are consumed at once. -/
def readSizeLine (p : HttpResponseParser) :
    Except (HttpResponseParser × ChunkExit) HttpResponseParser :=
  match find crlf p.buf with
  | none =>
      if p.limits.maxChunkLineBytes < p.buf.length then
        .error (p.failExit (lit "chunk-size line exceeds limit"))
      else .error (p, .needSizeLine)
  | some eol =>
      let sizeLine := p.buf.take eol
      let p := { p with buf := p.buf.drop (eol + 2) }
      let hex := sizeLine.take ((find [59] sizeLine).getD sizeLine.length)
      if hex = [] then .error (p.failExit (lit "empty chunk-size line"))
      else if ¬ hex.all isxdigit then
        .error (p.failExit (lit "malformed chunk size: " ++ quoted sizeLine))
      else if 16 < hex.length then
        .error (p.failExit (lit "chunk size too long: " ++ quoted sizeLine))
      else
        let size := (strtoull hex 16).1
        if size = 0 then
          .error (trailerLoop.run ({ p with chunkTrailerDone := false, trailerBytes := 0 }, 0))
        else if p.limits.maxBodyBytes < size ∨
            p.limits.maxBodyBytes < (p.resp.body.length + size) % 2 ^ 64 then
          .error (p.failExit (lit "chunked body exceeds limit"))
        else .ok { p with chunkRemaining := size, chunkStarted := true }

/-- Chunk payload complete: expect the terminating CRLF. -/
def endChunk (p : HttpResponseParser) :
    Pass HttpResponseParser (HttpResponseParser × ChunkExit) :=
  if p.buf.length < 2 then .exit (p, .needCrlf)
  else if p.buf.take 2 ≠ crlf then
    .exit (p.failExit (lit "chunk data not terminated by CRLF"))
  else .again { p with buf := p.buf.drop 2, chunkStarted := false }  -- next chunk

/-- Move what is there of the payload to the body. -/
def takePayload (p : HttpResponseParser) :
    Pass HttpResponseParser (HttpResponseParser × ChunkExit) :=
  if 0 < p.chunkRemaining then
    if p.buf = [] then .exit (p, .needPayload)
    else
      let take := min p.chunkRemaining p.buf.length
      let p := { p with
        resp.body := p.resp.body ++ p.buf.take take
        buf := p.buf.drop take
        chunkRemaining := p.chunkRemaining - take }
      if 0 < p.chunkRemaining then .exit (p, .needPayload) else p.endChunk
  else p.endChunk

/-- One round of the chunk loop. -/
def chunkPass (p : HttpResponseParser) :
    Pass HttpResponseParser (HttpResponseParser × ChunkExit) :=
  match if p.chunkStarted then .ok p else p.readSizeLine with
  | .error r => .exit r
  | .ok p => p.takePayload

theorem length_buf_of_readSizeLine {p q : HttpResponseParser} (h : p.readSizeLine = .ok q) :
    q.buf.length < p.buf.length := by
  rw [readSizeLine] at h
  split at h
  · split at h <;> contradiction
  · next eol hf =>
      have hle := find_add_length_le hf
      rw [length_crlf] at hle
      dsimp only at h
      repeat (split at h; · contradiction)
      rw [Except.ok.injEq] at h
      subst h
      rw [List.length_drop]
      omega

theorem length_buf_of_endChunk {p q : HttpResponseParser} (h : p.endChunk = .again q) :
    q.buf.length < p.buf.length := by
  rw [endChunk] at h
  split at h
  · contradiction
  · split at h
    · contradiction
    · rw [Pass.again.injEq] at h
      subst h
      rw [List.length_drop]
      omega

theorem length_buf_of_takePayload {p q : HttpResponseParser} (h : p.takePayload = .again q) :
    q.buf.length < p.buf.length := by
  rw [takePayload] at h
  split at h
  · split at h
    · contradiction
    · dsimp only at h
      split at h
      · contradiction
      · have hlt := length_buf_of_endChunk h
        rw [List.length_drop] at hlt
        omega
  · exact length_buf_of_endChunk h

theorem chunkPass_decreasing (p q : HttpResponseParser) (h : p.chunkPass = .again q) :
    q.buf.length < p.buf.length := by
  rw [chunkPass] at h
  split at h
  · contradiction
  · next p' hp =>
      have hlt := length_buf_of_takePayload h
      split at hp
      · rw [Except.ok.injEq] at hp
        rwa [hp]
      · have := length_buf_of_readSizeLine hp
        omega

/-- The chunk loop; every further round has used up bytes of the buffer. -/
def chunkLoop : Loop HttpResponseParser (HttpResponseParser × ChunkExit) where
  body := chunkPass
  measure p := p.buf.length
  decreasing := chunkPass_decreasing

def bodyStepChunked (p : HttpResponseParser) : HttpResponseParser × Bool :=
  match chunkLoop.run p with
  | (p, exit) => (p, exit ≠ .failed)

/-! ## Feed -/

/-- The body arms of `step`. -/
def stepBody (p : HttpResponseParser) : HttpResponseParser × Bool :=
  match p.state with
  | .bodyContentLength => p.bodyStepContentLength
  | .bodyChunked => p.bodyStepChunked
  | .bodyEof => (p, true)  -- all buffered bytes are body; finish on feed(EOF)
  | .done => (p, true)
  | .error => (p, false)
  | .statusLine | .headers => p.fail (lit "parser in unknown state")

/-- Consume as much of the buffer as possible: the header block when it is
complete, then any body bytes already there. -/
def step (p : HttpResponseParser) : HttpResponseParser × Bool :=
  match p.enterBody with
  | .error r => r
  | .ok p => p.stepBody

/-- The parser with received bytes appended to its buffer. -/
def push (p : HttpResponseParser) (data : List UInt8) : HttpResponseParser :=
  { p with buf := p.buf ++ data }

/-- Feed received bytes; `none` is the EOF marker `feed(nullptr, 0)`.  The
Boolean is false when the parser is in the error state. -/
def feed (p : HttpResponseParser) (data : Option (List UInt8)) : HttpResponseParser × Bool :=
  if p.state = .done then (p, true)
  else if p.state = .error then (p, false)
  else
    match data with
    | none =>
        if p.state = .bodyEof ∧ p.allowEofTermination then
          ({ p with resp.body := p.buf, buf := [], state := .done }, true)
        else p.fail (lit "connection closed before response was complete")
    | some data =>
        let p := p.push data
        if (p.state = .statusLine ∨ p.state = .headers) ∧
            p.limits.maxHeaderBytes < p.buf.length then
          p.fail (lit "header block exceeds " ++ decimal p.limits.maxHeaderBytes ++ lit " bytes")
        else if p.state = .bodyEof ∧ p.limits.maxBodyBytes < p.buf.length then
          p.fail (lit "EOF-framed body exceeds limit")
        else p.step

/-- Successive calls of `feed`; the Boolean is true when none returned false. -/
def feedAll (p : HttpResponseParser) : List (List UInt8) → HttpResponseParser × Bool
  | [] => (p, true)
  | data :: rest =>
      let (q, ok) := p.feed (some data)
      let (r, oks) := q.feedAll rest
      (r, ok && oks)

end HttpResponseParser

end ChaosForger

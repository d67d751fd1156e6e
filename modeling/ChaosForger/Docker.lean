import ChaosForger.Config

/-!
# ChaosForger.Docker

What the engine and the Docker client exchange: the containers a list call
returns, the stop and kill calls, and how these end.
-/

namespace ChaosForger

structure Container where
  /-- The full hex id. -/
  id : List UInt8
  /-- Normalized names, without a leading `/`. -/
  names : List (List UInt8)
  image : List UInt8 := []
  state : List UInt8 := []
  status : List UInt8 := []
  deriving DecidableEq, Repr

/-- A stop or kill call of the client interface. -/
inductive StrikeCall where
  | stopContainer (id : List UInt8) (timeoutSeconds : Int)
  | killContainer (id : List UInt8)
  deriving DecidableEq, Repr

/-- How a stop or kill call ended.  The engine sees the returned Boolean and
the HTTP status, 0 for a call without a response; `sent` records whether the
request was written, which it does not see. -/
structure StrikeResult where
  ok : Bool
  httpStatus : Int
  sent : Bool
  deriving DecidableEq, Repr

namespace StrikeResult

/-- The request went out and no answer came back: the action may have taken
effect on the container. -/
def lost (r : StrikeResult) : Bool := !r.ok && r.httpStatus == 0 && r.sent

/-- A failure the engine counts: the container has not simply vanished or
stopped already. -/
def failed (r : StrikeResult) : Bool := !r.ok && r.httpStatus != 404 && r.httpStatus != 409

end StrikeResult

end ChaosForger

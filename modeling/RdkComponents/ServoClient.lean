import Mathlib.Data.UInt

/-!
# The servo gRPC client

`client.Move` and `client.AngularOffset` each make one RPC on the servo service, with the
client's name in the request. `Move` widens its `uint8` angle to the wire's `uint32`, which
keeps its value, and returns the RPC's error as it came. `AngularOffset` returns 0 and the
RPC's error when the RPC fails, and otherwise narrows the wire's `uint32` with Go's
`uint8(...)`, which keeps the low byte, so an answer above 255 is read modulo 256. The
contract holds for every service, whatever the server does. The connection, the dialer and
the logger are left out: the service is a pair of functions of the server's state.
-/

namespace ServoClient

/-- `pb.ServoServiceMoveRequest`. -/
structure MoveRequest where
  angleDeg : UInt32
  name : String
  deriving DecidableEq, Repr

/-- `pb.ServoServiceAngularOffsetRequest`. -/
structure AngularOffsetRequest where
  name : String
  deriving DecidableEq, Repr

/-- `pb.ServoServiceAngularOffsetResponse`. -/
structure AngularOffsetResponse where
  angleDeg : UInt32
  deriving DecidableEq, Repr

/-- `pb.ServoServiceClient` on a server in state `σ`: each RPC may change the server and
answers or fails. -/
structure ServoServiceClient (σ : Type) where
  move : MoveRequest → σ → σ × Option String
  angularOffset : AngularOffsetRequest → σ → σ × Except String AngularOffsetResponse

/-- `client`: the service it talks through and the servo's name. -/
structure Client (σ : Type) where
  client : ServoServiceClient σ
  name : String

variable {σ : Type}

def Client.move (c : Client σ) (angle : UInt8) (st : σ) : σ × Option String :=
  let (st', err) := c.client.move ⟨angle.toUInt32, c.name⟩ st
  match err with
  | some err => (st', some err)
  | none => (st', none)

def Client.angularOffset (c : Client σ) (st : σ) : σ × UInt8 × Option String :=
  let (st', resp) := c.client.angularOffset ⟨c.name⟩ st
  match resp with
  | .error err => (st', 0, some err)
  | .ok resp => (st', resp.angleDeg.toUInt8, none)

end ServoClient

import Aleth.Devcore.Bytes
import Mathlib.Data.Prod.Lex
import Mathlib.Data.List.Lex

/-! Names of nodes and of capabilities, addresses and endpoints (`libp2p/Common.h`). -/
namespace Aleth.P2p
open Devcore

/-- `NodeID`, a public key (`h512`). -/
structure NodeID where
  bytes : Bytes
  size : bytes.length = 64
deriving DecidableEq

/-- `CapDesc`: a pair of a subprotocol's name and version. -/
structure CapDesc where
  name : Bytes
  version : ℕ
deriving DecidableEq

/-- Pairs are compared by name, then by version. -/
instance : LinearOrder CapDesc :=
  LinearOrder.lift' (fun c : CapDesc => toLex (c.name, c.version)) fun a b h => by
    cases a
    cases b
    cases h
    rfl

def c_protocolVersion : ℕ := 4

/-- `UserPacket`, the first packet id of the capabilities. -/
def UserPacket : ℕ := 0x10

inductive DisconnectReason where
  | DisconnectRequested
  | TCPError
  | BadProtocol
  | UselessPeer
  | TooManyPeers
  | DuplicatePeer
  | IncompatibleProtocol
  | NullIdentity
  | ClientQuit
  | UnexpectedIdentity
  | LocalIdentity
  | PingTimeout
  | UserReason
  | NoDisconnect
deriving DecidableEq

/-! ### Endpoints -/

/-- `bi::address`. -/
inductive Address where
  | v4 (bytes : Bytes) (size : bytes.length = 4)
  | v6 (bytes : Bytes) (size : bytes.length = 16)
deriving DecidableEq

namespace Address

def to_bytes : Address → Bytes
  | v4 bytes _ => bytes
  | v6 bytes _ => bytes

theorem to_bytes_injective {a b : Address} (h : a.to_bytes = b.to_bytes) : a = b := by
  cases a with
  | v4 x hx =>
    cases b with
    | v4 y hy => cases h; rfl
    | v6 y hy =>
      cases h
      rw [hx] at hy
      cases hy
  | v6 x hx =>
    cases b with
    | v4 y hy =>
      cases h
      rw [hx] at hy
      cases hy
    | v6 y hy => cases h; rfl

/-- `bi::address()`. -/
def unspecified : Address := .v4 [0, 0, 0, 0] rfl

def is_unspecified (a : Address) : Bool := a.to_bytes.all (· = 0)

end Address

def isPrivateAddress : Address → Bool
  | .v4 bytes _ =>
    bytes.take 1 = [10] || bytes.take 1 = [127] ||
    (bytes.take 1 = [172] && (bytes.drop 1).head?.any fun b => 16 ≤ b.toNat && b.toNat ≤ 31) ||
    bytes.take 2 = [192, 168]
  | .v6 bytes _ =>
    bytes.take 2 = [0xfd, 0] ||
    ((bytes.take 15).all (· = 0) && (bytes.drop 15 = [0] || bytes.drop 15 = [1]))

/-- The addresses 127.0.0.1, 0.0.0.0, ::1 and ::. -/
def isLocalHostAddress (a : Address) : Bool :=
  a.to_bytes ∈ [[127, 0, 0, 1], [0, 0, 0, 0], List.replicate 15 0 ++ [1], List.replicate 16 0]

def isPublicAddress (a : Address) : Bool := !(isPrivateAddress a || isLocalHostAddress a)

def isAllowedAddress (allowLocalDiscovery : Bool) (a : Address) : Bool :=
  if allowLocalDiscovery then !a.is_unspecified else isPublicAddress a

/-- `bi::udp::endpoint`. -/
structure UdpEndpoint where
  address : Address
  port : UInt16
deriving DecidableEq

/-- Endpoints are compared by the kind of address, the address and the port. -/
instance : LinearOrder UdpEndpoint :=
  LinearOrder.lift' (fun e : UdpEndpoint =>
    toLex (e.address.to_bytes.length, toLex (e.address.to_bytes, e.port.toNat))) fun a b h => by
    have hb : a.address.to_bytes = b.address.to_bytes :=
      congrArg (fun x => (ofLex (ofLex x).2).1) h
    have hp : a.port.toNat = b.port.toNat := congrArg (fun x => (ofLex (ofLex x).2).2) h
    cases a
    cases b
    rw [UdpEndpoint.mk.injEq]
    exact ⟨Address.to_bytes_injective hb, UInt16.toNat_inj.mp hp⟩

structure NodeIPEndpoint where
  address : Address
  udpPort : UInt16
  tcpPort : UInt16
deriving DecidableEq

namespace NodeIPEndpoint

def udp (e : NodeIPEndpoint) : UdpEndpoint := ⟨e.address, e.udpPort⟩

/-- `operator bool`. -/
def isSpecified (e : NodeIPEndpoint) : Bool :=
  !e.address.is_unspecified && e.udpPort ≠ 0 && e.tcpPort ≠ 0

end NodeIPEndpoint

def isAllowedEndpoint (allowLocalDiscovery : Bool) (e : NodeIPEndpoint) : Bool :=
  isAllowedAddress allowLocalDiscovery e.address

structure Node where
  id : NodeID
  endpoint : NodeIPEndpoint
deriving DecidableEq

end Aleth.P2p

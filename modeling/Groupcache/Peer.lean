import Mathlib.Init

/-!
# Peers and errors

The vocabulary the modules of the library share: socket addresses and the
peers and clients named by them (`groupcache.rs`), and the errors
(`errors.rs`). A `GroupcachePeerClient` is a tonic channel, known by the
address it dials and by a number that tells apart the channels opened to one
address.
-/

namespace Groupcache

/-! ## Addresses -/

/-- `std::net::Ipv4Addr`, by octets. -/
structure Ipv4Addr where
  a : UInt8
  b : UInt8
  c : UInt8
  d : UInt8
  deriving DecidableEq

/-- `std::net::Ipv6Addr`, by segments. -/
structure Ipv6Addr where
  a : UInt16
  b : UInt16
  c : UInt16
  d : UInt16
  e : UInt16
  f : UInt16
  g : UInt16
  h : UInt16
  deriving DecidableEq

/-- `std::net::SocketAddr`. Equality compares every field, the IPv6 flow
information and scope included. -/
inductive SocketAddr where
  | v4 (ip : Ipv4Addr) (port : UInt16)
  | v6 (ip : Ipv6Addr) (port : UInt16) (flowinfo scopeId : UInt32)
  deriving DecidableEq

/-- Wrapper around peer address. -/
structure GroupcachePeer where
  socket : SocketAddr
  deriving DecidableEq

/-- `GroupcacheClient<Channel>`. -/
structure GroupcachePeerClient where
  socket : SocketAddr
  channel : Nat
  deriving DecidableEq

/-- The peer whose server answers on the channel. -/
def GroupcachePeerClient.peer (client : GroupcachePeerClient) : GroupcachePeer :=
  ⟨client.socket⟩

structure GroupcachePeerWithClient where
  peer : GroupcachePeer
  client : Option GroupcachePeerClient
  deriving DecidableEq

/-! ## Errors -/

/-- `tonic::Status`, of the codes that occur here: the handlers' own
`Status::internal` and what the transport reports. -/
inductive Status where
  | internal (message : String)
  | transport (message : String)
  deriving DecidableEq

def Status.message : Status → String
  | .internal message => message
  | .transport message => message

inductive InternalGroupcacheError where
  | localLoader (error : String)
  | transport (status : Status)
  | rmp (error : String)
  | deduped (error : InternalGroupcacheError)
  | connection (error : String)
  | connectionErrors (errors : List InternalGroupcacheError)
  | anyhow (message : String)

/-- `Display` of an error; `debug` is the derived `Debug`, which only the
list of connection errors is printed with. -/
def InternalGroupcacheError.display (debug : InternalGroupcacheError → String) :
    InternalGroupcacheError → String
  | .localLoader error => s!"Loading error: '{error}'"
  | .transport status => s!"Transport error: '{status.message}'"
  | .rmp error => error
  | .deduped error => error.display debug
  | .connection error => error
  | .connectionErrors errors => s!"Connection errors: {errors.map debug}"
  | .anyhow message => message

/-! ## From a lookup on -/

/-- Where a node goes with a key: it is the owner, or it asks over a client. -/
inductive Dispatch where
  | here
  | over (client : GroupcachePeerClient)

/-- What `get_deduped` and `remove_internal` of node `me` do with the peer
they have looked up. -/
def GroupcachePeerWithClient.dispatch (found : GroupcachePeerWithClient) (me : GroupcachePeer) :
    Except InternalGroupcacheError Dispatch :=
  if found.peer = me then .ok .here
  else
    match found.client with
    | some client => .ok (.over client)
    | none => .error (.anyhow "unreachable: cannot be empty since it's a remote peer")

/-- The peer is the node itself, or comes with a client. -/
def GroupcachePeerWithClient.Resolves (found : GroupcachePeerWithClient) (me : GroupcachePeer) :
    Prop :=
  found.peer = me ∨ found.client.isSome

instance (found : GroupcachePeerWithClient) (me : GroupcachePeer) :
    Decidable (found.Resolves me) :=
  inferInstanceAs (Decidable (found.peer = me ∨ found.client.isSome))

theorem GroupcachePeerWithClient.Resolves.dispatch_ne_error {found : GroupcachePeerWithClient}
    {me : GroupcachePeer} (h : found.Resolves me) (e : InternalGroupcacheError) :
    found.dispatch me ≠ .error e := by
  intro hd
  unfold GroupcachePeerWithClient.dispatch at hd
  split at hd
  · cases hd
  · rename_i hne
    obtain ⟨client, hc⟩ := Option.isSome_iff_exists.mp (h.resolve_left hne)
    rw [hc] at hd
    cases hd

/-- How a call that returns `anyhow::Result` can fail to return `Ok`: by an
error value, or by panicking. -/
inductive Fault where
  | error (message : String)
  | panic (message : String)
  deriving DecidableEq

end Groupcache

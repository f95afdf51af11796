import Dfs.Library.Linearization
import Dfs.Library.Transition
import Dfs.Storage.StorageNode

/-!
# The storage server

A storage node with all its connections.  Clients send what bytes they like and drop when they
like; each connection has a handler, and `handleClient` goes on one step at a time: a frame read, a
message sent, an access to `storage_` under the mutex.  `inbound` holds what has been sent to the
handler and not yet read, `outbound` what it has sent.
-/

namespace Dfs
namespace Storage

open Bytes TextScan Network Linearization

/-- Where `handleClient` is. -/
inductive Handler where
  /-- at `while (running_)` -/
  | top
  /-- in `recvMessage` -/
  | reading
  /-- about to send `READY` -/
  | ready (hash : Bytes)
  /-- in `recvData` -/
  | awaitData (hash : Bytes)
  /-- about to take the mutex and store -/
  | storing (hash data : Bytes)
  /-- about to send `ACK` -/
  | ack (hash data : Bytes)
  /-- about to take the mutex and look up -/
  | lookup (hash : Bytes)
  /-- about to send `FOUND` -/
  | found (hash data : Bytes)
  /-- about to send the data -/
  | foundData (hash data : Bytes)
  /-- about to send `NOT_FOUND` -/
  | notFound (hash : Bytes)
  /-- about to send `ERROR` -/
  | error
  /-- `running_` is false, and `server_.stop()` comes next -/
  | dying
  /-- past `closeClient` -/
  | closed
  deriving DecidableEq

/-- A connection: `connected` is false once either side has closed it, and `received` counts the
commands that its handler has read. -/
structure Endpoint where
  inbound : Bytes
  outbound : Bytes
  connected : Bool
  handler : Handler
  received : Nat

structure Server where
  node : StorageNode
  /-- `server_` has not been stopped -/
  listening : Bool
  conns : Nat → Option Endpoint
  accepted : Nat

inductive Label where
  /-- `acceptClient` gives a new connection -/
  | accept
  /-- the client sends bytes -/
  | arrive (id : Nat) (bytes : Bytes)
  /-- the connection drops; of the unread bytes the first `kept` can still be read -/
  | drop (id kept : Nat)
  /-- the handler goes on -/
  | handle (id : Nat)
  deriving DecidableEq

namespace Endpoint

def opened : Endpoint :=
  { inbound := []
    outbound := []
    connected := true
    handler := .top
    received := 0 }

def goto (c : Endpoint) (handler : Handler) : Endpoint :=
  { c with handler := handler }

/-- `sendMessage` or `sendData`, whose result the handler ignores, and what comes after it. -/
def send (c : Endpoint) (message : Bytes) (handler : Handler) : Endpoint :=
  { c with
    outbound := if c.connected then c.outbound ++ sendData message else c.outbound
    handler := handler }

/-- `recvData` returns: with a frame, or because the connection delivers nothing more. -/
def readable (c : Endpoint) : Bool :=
  frameReady c.inbound || !c.connected

/-- The bytes of the frame that was received are gone. -/
def advance (c : Endpoint) : Endpoint :=
  { c with inbound := (recvData c.inbound).2 }

/-- `closeClient`. -/
def close (c : Endpoint) : Endpoint :=
  { c with
    connected := false
    handler := .closed }

/-- The connection drops. -/
def drop (c : Endpoint) (kept : Nat) : Endpoint :=
  { c with
    inbound := c.inbound.take kept
    connected := false }

end Endpoint

namespace Server

/-- A node that has just been started. -/
def launch : Server :=
  { node := StorageNode.launch
    listening := true
    conns := fun _ => none
    accepted := 0 }

def setConn (s : Server) (id : Nat) (c : Endpoint) : Server :=
  { s with conns := Function.update s.conns id (some c) }

/-- `server_.stop()`: every socket is closed. -/
def stop (s : Server) : Server :=
  { s with
    listening := false
    conns := fun id => (s.conns id).map fun c => { c with connected := false } }

/-- Where a command takes the handler that has read it. -/
def afterCommand (node : StorageNode) (command : Bytes) : Handler :=
  if command = [] then .closed
  else
    match (node.dispatch command).2.1 with
    | .awaitData hash => .ready hash
    | .lookup hash => .lookup hash
    | .idle => .error
    | _ => .dying

/-- The handler of connection `id` goes on. -/
def serve (s : Server) (id : Nat) (c : Endpoint) : Option Server :=
  match c.handler with
  | .top =>
      some (s.setConn id (if s.node.running then c.goto .reading else c.close))
  | .reading =>
      if c.readable then
        match afterCommand s.node (recvData c.inbound).1 with
        | .closed => some (s.setConn id c.advance.close)
        | handler =>
            some (Server.setConn
              { s with node := (s.node.dispatch (recvData c.inbound).1).1 } id
              { c.advance with
                handler := handler
                received := c.received + 1 })
      else none
  | .ready hash => some (s.setConn id (c.send (ascii "READY") (.awaitData hash)))
  | .awaitData hash =>
      if c.readable then
        match (recvData c.inbound).1 with
        | [] => some (s.setConn id c.advance.close)
        | data => some (s.setConn id (c.advance.goto (.storing hash data)))
      else none
  | .storing hash data =>
      some (Server.setConn { s with node := s.node.store hash data } id (c.goto (.ack hash data)))
  | .ack _ _ => some (s.setConn id (c.send (ascii "ACK") .top))
  | .lookup hash =>
      match (s.node.storage hash).getD [] with
      | [] => some (s.setConn id (c.goto (.notFound hash)))
      | data => some (s.setConn id (c.goto (.found hash data)))
  | .found hash data => some (s.setConn id (c.send (ascii "FOUND") (.foundData hash data)))
  | .foundData _ data => some (s.setConn id (c.send data .top))
  | .notFound _ => some (s.setConn id (c.send (ascii "NOT_FOUND") .top))
  | .error => some (s.setConn id (c.send (ascii "ERROR") .top))
  | .dying => some (s.stop.setConn id c.close)
  | .closed => none

def step (s : Server) : Label → Option Server
  | .accept =>
      if s.listening then
        some { s.setConn s.accepted Endpoint.opened with accepted := s.accepted + 1 }
      else none
  | .arrive id bytes =>
      match s.conns id with
      | none => none
      | some c =>
          if c.connected then some (s.setConn id { c with inbound := c.inbound ++ bytes })
          else none
  | .drop id kept => (s.conns id).map fun c => s.setConn id (c.drop kept)
  | .handle id => (s.conns id).bind (s.serve id)

end Server
end Storage
end Dfs

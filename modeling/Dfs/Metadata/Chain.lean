import Dfs.Library.Transition
import Dfs.Metadata.MetadataNode

/-!
# The metadata chain

The metadata nodes together: the connections to them, the handler of each connection, and the
health checks.  A handler stores under `storeMutex_`, tests its role, forwards on a connection of
its own and waits for the reply, and each of these is a step that other handlers may come between.
Connections may be refused and may break, and nodes may crash, at any time; the conditions under
which a property is claimed are conditions on the steps of a run.

`Step` lists what a step can do, and `step_cases` reads it off `step`.
-/

namespace Dfs
namespace Metadata

open Bytes TextScan

/-- The nodes, by number, and which of them listens at an endpoint. -/
structure Network where
  size : Nat
  resolve : Bytes → Int → Option Nat

/-- Where the handler of a connection is. -/
inductive Phase where
  /-- a command has been received -/
  | received
  /-- the record of a `PUT` is stored, the mutex released -/
  | stored
  /-- the role test of `handlePut` sent it on to `forwardPut` -/
  | forwarding
  /-- in `recvMessage` of `forwardPut` -/
  | waiting (child : Nat)
  /-- the role test of `handleGet` is passed -/
  | reading (filename : Bytes)
  | replied (reply : Bytes)
  /-- the command gets no reply, and the connection stays open -/
  | silent
  /-- the connection is closed without a reply -/
  | closed
  /-- the client has read the reply -/
  | taken
  deriving DecidableEq

/-- A connection that carries one command.  `parent` is the connection whose handler opened it to
forward, `origin` (for the statements only) the client's connection it descends from, and `lost`
says that whoever waits at its other end gets no reply any more. -/
structure Conn where
  node : Nat
  command : Bytes
  parent : Option Nat
  origin : Nat
  phase : Phase
  lost : Bool
  deriving DecidableEq

/-- A record stored at a node for the request of a client. -/
structure Applied where
  node : Nat
  origin : Nat
  record : FileMetadata
  deriving DecidableEq

/-- `suspected` holds where `pingNext` has failed and `handleNextNodeFailure` comes next.  `log`
lists the stores of all nodes in their order; no step reads it. -/
structure Chain where
  nodes : Nat → MetadataNode
  up : Nat → Bool
  suspected : Nat → Bool
  conns : Nat → Option Conn
  opened : Nat
  log : List Applied

namespace Chain

inductive Label where
  /-- a client connects to a node and sends a command -/
  | connect (v : Nat) (command : Bytes)
  /-- the handler of a connection takes its next step -/
  | serve (id : Nat)
  /-- the handler of a connection cannot connect to the next node -/
  | refuse (id : Nat)
  /-- a connection breaks -/
  | lose (id : Nat)
  /-- the client reads the reply on its connection -/
  | take (id : Nat)
  | crash (v : Nat)
  /-- a round of the health check finds the next node failed -/
  | pingFails (v : Nat)
  /-- the health check goes on to `handleNextNodeFailure` -/
  | recover (v : Nat)
  deriving DecidableEq

/-- The nodes as they have been started. -/
def launch (nodes : Nat → MetadataNode) : Chain :=
  { nodes := nodes
    up := fun _ => true
    suspected := fun _ => false
    conns := fun _ => none
    opened := 0
    log := [] }

def setPhase (s : Chain) (id : Nat) (c : Conn) (phase : Phase) : Chain :=
  { s with conns := Function.update s.conns id (some { c with phase := phase }) }

def setNode (s : Chain) (v : Nat) (node : MetadataNode) : Chain :=
  { s with nodes := Function.update s.nodes v node }

def addConn (s : Chain) (c : Conn) : Chain :=
  { s with
    conns := Function.update s.conns s.opened (some c)
    opened := s.opened + 1 }

/-- What a handler makes of the reply to its forward. -/
def forwardReply (reply : Bytes) : Bytes :=
  if reply = ascii "ACK" then ascii "ACK" else ascii "ERROR_FORWARD"

/-- The reply that arrives over a connection, once there is one or it cannot come any more. -/
def arrived (c : Conn) : Option Bytes :=
  if c.lost then some []
  else
    match c.phase with
    | .replied reply => some reply
    | .closed => some []
    | _ => none

/-- The node that a node's `nextNodeIp_` and `nextNodePort_` lead to, if it is up. -/
def nextUp (net : Network) (s : Chain) (v : Nat) : Option Nat :=
  match net.resolve (s.nodes v).nextNodeIp (s.nodes v).nextNodePort with
  | none => none
  | some w => if w < net.size ∧ s.up w = true then some w else none

/-- The connection that a handler opens to forward its command. -/
def forwardConn (id : Nat) (c : Conn) (w : Nat) : Conn :=
  { node := w
    command := c.command
    parent := some id
    origin := c.origin
    phase := .received
    lost := false }

/-- The chain after a handler has stored the record of its command. -/
def storeRecord (s : Chain) (id : Nat) (c : Conn) (record : FileMetadata) : Chain :=
  { (s.setNode c.node ((s.nodes c.node).storeMetadata record)).setPhase id c .stored with
    log := s.log ++ [⟨c.node, c.origin, record⟩] }

/-- The first step of a handler on a command. -/
def serveCommand (s : Chain) (id : Nat) (c : Conn) : Option Chain :=
  match (s.nodes c.node).dispatch c.command with
  | .close => some (s.setPhase id c .closed)
  | .put =>
      match MetadataNode.parsePut c.command with
      | none => some (s.setPhase id c (.replied (ascii "ERROR_ARGS")))
      | some record =>
          some (s.storeRecord id c record)
  | .get filename =>
      if (s.nodes c.node).servesReads then some (s.setPhase id c (.reading filename))
      else some (s.setPhase id c (.replied (ascii "REDIRECT_TO_TAIL")))
  | .respond node reply => some ((s.setNode c.node node).setPhase id c (.replied reply))
  | .ignore => some (s.setPhase id c .silent)
  | .die => none

def serveConn (net : Network) (s : Chain) (id : Nat) (c : Conn) : Option Chain :=
  match c.phase with
  | .received => s.serveCommand id c
  | .stored =>
      if (s.nodes c.node).mustForward then some (s.setPhase id c .forwarding)
      else some (s.setPhase id c (.replied (ascii "ACK")))
  | .forwarding =>
      match s.nextUp net c.node with
      | none => some (s.setPhase id c (.replied (ascii "ERROR_FORWARD")))
      | some w =>
          some ((s.setPhase id c (.waiting s.opened)).addConn (forwardConn id c w))
  | .waiting child =>
      match (s.conns child).bind arrived with
      | none => none
      | some reply => some (s.setPhase id c (.replied (forwardReply reply)))
  | .reading filename =>
      some (s.setPhase id c
        (.replied (MetadataNode.lookupMessage ((s.nodes c.node).metadataStore filename))))
  | _ => none

/-- One step.  `DIE` is a crash and not a command of a run; a command is a frame, so its length
has 32 bits. -/
def step (net : Network) (s : Chain) : Label → Option Chain
  | .connect v command =>
      if v < net.size ∧ s.up v = true ∧ command.length < 2 ^ 32 then
        some (s.addConn
          { node := v
            command := command
            parent := none
            origin := s.opened
            phase := .received
            lost := false })
      else none
  | .serve id =>
      match s.conns id with
      | none => none
      | some c => if s.up c.node then serveConn net s id c else none
  | .refuse id =>
      match s.conns id with
      | none => none
      | some c =>
          if s.up c.node = true ∧ c.phase = .forwarding then
            some (s.setPhase id c (.replied (ascii "ERROR_FORWARD")))
          else none
  | .lose id =>
      match s.conns id with
      | none => none
      | some c => some { s with conns := Function.update s.conns id (some { c with lost := true }) }
  | .take id =>
      match s.conns id with
      | none => none
      | some c =>
          match c.phase with
          | .replied _ =>
              if c.parent = none ∧ c.lost = false then some (s.setPhase id c .taken) else none
          | _ => none
  | .crash v =>
      if v < net.size then some { s with up := Function.update s.up v false } else none
  | .pingFails v =>
      if v < net.size ∧ s.up v = true ∧ (s.nodes v).nextNodePort ≠ -1 then
        some { s with suspected := Function.update s.suspected v true }
      else none
  | .recover v =>
      if s.up v = true ∧ s.suspected v = true then
        let (node, message) := (s.nodes v).handleNextNodeFailure
        let s' : Chain :=
          { s.setNode v node with suspected := Function.update s.suspected v false }
        match message with
        | none => some s'
        | some message =>
            match s'.nextUp net v with
            | none => some s'
            | some w =>
                -- Nobody waits for the reply to the notification.
                some (s'.addConn
                  { node := w
                    command := message
                    parent := none
                    origin := s.opened
                    phase := .received
                    lost := true })
      else none

/-! ## Field lemmas -/

section Fields

variable (s : Chain) (id : Nat) (c : Conn) (phase : Phase) (v : Nat) (node : MetadataNode)

@[simp] theorem setPhase_nodes : (s.setPhase id c phase).nodes = s.nodes := rfl
@[simp] theorem setPhase_up : (s.setPhase id c phase).up = s.up := rfl
@[simp] theorem setPhase_suspected : (s.setPhase id c phase).suspected = s.suspected := rfl
@[simp] theorem setPhase_opened : (s.setPhase id c phase).opened = s.opened := rfl
@[simp] theorem setPhase_log : (s.setPhase id c phase).log = s.log := rfl
@[simp] theorem setPhase_conns : (s.setPhase id c phase).conns =
    Function.update s.conns id (some { c with phase := phase }) := rfl

@[simp] theorem setNode_nodes : (s.setNode v node).nodes = Function.update s.nodes v node := rfl
@[simp] theorem setNode_up : (s.setNode v node).up = s.up := rfl
@[simp] theorem setNode_suspected : (s.setNode v node).suspected = s.suspected := rfl
@[simp] theorem setNode_conns : (s.setNode v node).conns = s.conns := rfl
@[simp] theorem setNode_opened : (s.setNode v node).opened = s.opened := rfl
@[simp] theorem setNode_log : (s.setNode v node).log = s.log := rfl

@[simp] theorem addConn_nodes : (s.addConn c).nodes = s.nodes := rfl
@[simp] theorem addConn_up : (s.addConn c).up = s.up := rfl
@[simp] theorem addConn_suspected : (s.addConn c).suspected = s.suspected := rfl
@[simp] theorem addConn_opened : (s.addConn c).opened = s.opened + 1 := rfl
@[simp] theorem addConn_log : (s.addConn c).log = s.log := rfl
@[simp] theorem addConn_conns : (s.addConn c).conns =
    Function.update s.conns s.opened (some c) := rfl

end Fields

/-! ## What a step can do -/

/-- The steps of a handler that change nothing but its phase. -/
inductive Moves (net : Network) (s : Chain) (c : Conn) : Phase → Prop where
  | close : c.phase = .received → (s.nodes c.node).dispatch c.command = .close →
      Moves net s c .closed
  | badArgs : c.phase = .received → (s.nodes c.node).dispatch c.command = .put →
      MetadataNode.parsePut c.command = none → Moves net s c (.replied (ascii "ERROR_ARGS"))
  | redirect (filename : Bytes) : c.phase = .received →
      (s.nodes c.node).dispatch c.command = .get filename →
      (s.nodes c.node).servesReads = false → Moves net s c (.replied (ascii "REDIRECT_TO_TAIL"))
  | startRead (filename : Bytes) : c.phase = .received →
      (s.nodes c.node).dispatch c.command = .get filename →
      (s.nodes c.node).servesReads = true → Moves net s c (.reading filename)
  | ignore : c.phase = .received → (s.nodes c.node).dispatch c.command = .ignore →
      Moves net s c .silent
  | sendOn : c.phase = .stored → (s.nodes c.node).mustForward = true → Moves net s c .forwarding
  | ack : c.phase = .stored → (s.nodes c.node).mustForward = false →
      Moves net s c (.replied (ascii "ACK"))
  | noNext : c.phase = .forwarding → s.nextUp net c.node = none →
      Moves net s c (.replied (ascii "ERROR_FORWARD"))
  | relay (child : Nat) (cc : Conn) (reply : Bytes) : c.phase = .waiting child →
      s.conns child = some cc → arrived cc = some reply →
      Moves net s c (.replied (forwardReply reply))
  | read (filename : Bytes) : c.phase = .reading filename →
      Moves net s c
        (.replied (MetadataNode.lookupMessage ((s.nodes c.node).metadataStore filename)))

inductive Step (net : Network) (s : Chain) : Label → Chain → Prop where
  | connect (v : Nat) (command : Bytes) : v < net.size → s.up v = true → command.length < 2 ^ 32 →
      Step net s (.connect v command)
        (s.addConn
          { node := v
            command := command
            parent := none
            origin := s.opened
            phase := .received
            lost := false })
  | move (id : Nat) (c : Conn) (phase : Phase) : s.conns id = some c → s.up c.node = true →
      Moves net s c phase → Step net s (.serve id) (s.setPhase id c phase)
  | store (id : Nat) (c : Conn) (record : FileMetadata) : s.conns id = some c →
      s.up c.node = true → c.phase = .received → (s.nodes c.node).dispatch c.command = .put →
      MetadataNode.parsePut c.command = some record →
      Step net s (.serve id) (s.storeRecord id c record)
  | respond (id : Nat) (c : Conn) (node : MetadataNode) (reply : Bytes) : s.conns id = some c →
      s.up c.node = true → c.phase = .received →
      (s.nodes c.node).dispatch c.command = .respond node reply →
      Step net s (.serve id) ((s.setNode c.node node).setPhase id c (.replied reply))
  | forward (id : Nat) (c : Conn) (w : Nat) : s.conns id = some c → s.up c.node = true →
      c.phase = .forwarding → s.nextUp net c.node = some w →
      Step net s (.serve id) ((s.setPhase id c (.waiting s.opened)).addConn (forwardConn id c w))
  | refuse (id : Nat) (c : Conn) : s.conns id = some c → s.up c.node = true →
      c.phase = .forwarding →
      Step net s (.refuse id) (s.setPhase id c (.replied (ascii "ERROR_FORWARD")))
  | lose (id : Nat) (c : Conn) : s.conns id = some c →
      Step net s (.lose id)
        { s with conns := Function.update s.conns id (some { c with lost := true }) }
  | take (id : Nat) (c : Conn) (reply : Bytes) : s.conns id = some c → c.phase = .replied reply →
      c.parent = none → c.lost = false → Step net s (.take id) (s.setPhase id c .taken)
  | crash (v : Nat) : v < net.size →
      Step net s (.crash v) { s with up := Function.update s.up v false }
  | pingFails (v : Nat) : v < net.size → s.up v = true → (s.nodes v).nextNodePort ≠ -1 →
      Step net s (.pingFails v) { s with suspected := Function.update s.suspected v true }
  | recover (v : Nat) (node : MetadataNode) (message : Option Bytes) : s.up v = true →
      s.suspected v = true → (s.nodes v).handleNextNodeFailure = (node, message) →
      Step net s (.recover v)
        { s.setNode v node with suspected := Function.update s.suspected v false }
  | notify (v : Nat) (node : MetadataNode) (message : Bytes) (w : Nat) : s.up v = true →
      s.suspected v = true → (s.nodes v).handleNextNodeFailure = (node, some message) →
      w < net.size →
      Step net s (.recover v)
        ({ s.setNode v node with suspected := Function.update s.suspected v false }.addConn
          { node := w
            command := message
            parent := none
            origin := s.opened
            phase := .received
            lost := true })

theorem nextUp_eq_some {net : Network} {s : Chain} {v w : Nat} (h : s.nextUp net v = some w) :
    net.resolve (s.nodes v).nextNodeIp (s.nodes v).nextNodePort = some w ∧ w < net.size ∧
      s.up w = true := by
  unfold nextUp at h
  cases hres : net.resolve (s.nodes v).nextNodeIp (s.nodes v).nextNodePort with
  | none => simp [hres] at h
  | some w' =>
      by_cases hw : w' < net.size ∧ s.up w' = true
      · simp only [hres, if_pos hw, Option.some.injEq] at h
        subst h
        exact ⟨rfl, hw⟩
      · simp [hres, if_neg hw] at h

theorem step_storeRecord {net : Network} {s : Chain} {id : Nat} {c : Conn}
    {record : FileMetadata} (hc : s.conns id = some c) (hup : s.up c.node = true)
    (hphase : c.phase = .received) (hput : (s.nodes c.node).dispatch c.command = .put)
    (hparse : MetadataNode.parsePut c.command = some record) :
    Chain.step net s (.serve id) = some (s.storeRecord id c record) := by
  simp only [Chain.step, hc, hup, if_true, serveConn, hphase, serveCommand, hput, hparse]

theorem serveConn_cases {net : Network} {s s' : Chain} {id : Nat} {c : Conn}
    (hc : s.conns id = some c) (hup : s.up c.node = true)
    (h : serveConn net s id c = some s') : Step net s (.serve id) s' := by
  unfold serveConn at h
  cases hphase : c.phase with
  | received =>
      simp only [hphase, serveCommand] at h
      cases hdispatch : (s.nodes c.node).dispatch c.command with
      | close =>
          simp only [hdispatch, Option.some.injEq] at h
          exact h ▸ .move id c _ hc hup (.close hphase hdispatch)
      | put =>
          cases hparse : MetadataNode.parsePut c.command with
          | none =>
              simp only [hdispatch, hparse, Option.some.injEq] at h
              exact h ▸ .move id c _ hc hup (.badArgs hphase hdispatch hparse)
          | some record =>
              simp only [hdispatch, hparse, Option.some.injEq] at h
              exact h ▸ .store id c record hc hup hphase hdispatch hparse
      | get filename =>
          cases hserves : (s.nodes c.node).servesReads with
          | true =>
              simp only [hdispatch, hserves, if_true, Option.some.injEq] at h
              exact h ▸ .move id c _ hc hup (.startRead filename hphase hdispatch hserves)
          | false =>
              simp only [hdispatch, hserves, Bool.false_eq_true, if_false,
                Option.some.injEq] at h
              exact h ▸ .move id c _ hc hup (.redirect filename hphase hdispatch hserves)
      | respond node reply =>
          simp only [hdispatch, Option.some.injEq] at h
          exact h ▸ .respond id c node reply hc hup hphase hdispatch
      | ignore =>
          simp only [hdispatch, Option.some.injEq] at h
          exact h ▸ .move id c _ hc hup (.ignore hphase hdispatch)
      | die => simp [hdispatch] at h
  | stored =>
      cases hmust : (s.nodes c.node).mustForward with
      | true =>
          simp only [hphase, hmust, if_true, Option.some.injEq] at h
          exact h ▸ .move id c _ hc hup (.sendOn hphase hmust)
      | false =>
          simp only [hphase, hmust, Bool.false_eq_true, if_false, Option.some.injEq] at h
          exact h ▸ .move id c _ hc hup (.ack hphase hmust)
  | forwarding =>
      cases hnext : s.nextUp net c.node with
      | none =>
          simp only [hphase, hnext, Option.some.injEq] at h
          exact h ▸ .move id c _ hc hup (.noNext hphase hnext)
      | some w =>
          simp only [hphase, hnext, Option.some.injEq] at h
          exact h ▸ .forward id c w hc hup hphase hnext
  | waiting child =>
      cases hchild : s.conns child with
      | none => simp [hphase, hchild] at h
      | some cc =>
          cases hreply : arrived cc with
          | none => simp [hphase, hchild, hreply] at h
          | some reply =>
              simp only [hphase, hchild, Option.bind_some, hreply, Option.some.injEq] at h
              exact h ▸ .move id c _ hc hup (.relay child cc reply hphase hchild hreply)
  | reading filename =>
      simp only [hphase, Option.some.injEq] at h
      exact h ▸ .move id c _ hc hup (.read filename hphase)
  | replied reply => simp [hphase] at h
  | silent => simp [hphase] at h
  | closed => simp [hphase] at h
  | taken => simp [hphase] at h

theorem step_cases {net : Network} {s s' : Chain} {l : Label} (h : step net s l = some s') :
    Step net s l s' := by
  cases l with
  | connect v command =>
      by_cases hv : v < net.size ∧ s.up v = true ∧ command.length < 2 ^ 32
      · simp only [step, if_pos hv, Option.some.injEq] at h
        exact h ▸ .connect v command hv.1 hv.2.1 hv.2.2
      · simp only [step, if_neg hv] at h
        cases h
  | serve id =>
      cases hc : s.conns id with
      | none => simp [step, hc] at h
      | some c =>
          cases hup : s.up c.node with
          | false => simp [step, hc, hup] at h
          | true =>
              simp only [step, hc, hup, if_true] at h
              exact serveConn_cases hc hup h
  | refuse id =>
      cases hc : s.conns id with
      | none => simp [step, hc] at h
      | some c =>
          by_cases hcond : s.up c.node = true ∧ c.phase = .forwarding
          · simp only [step, hc, if_pos hcond, Option.some.injEq] at h
            exact h ▸ .refuse id c hc hcond.1 hcond.2
          · simp [step, hc, hcond] at h
  | lose id =>
      cases hc : s.conns id with
      | none => simp [step, hc] at h
      | some c =>
          simp only [step, hc, Option.some.injEq] at h
          exact h ▸ .lose id c hc
  | take id =>
      cases hc : s.conns id with
      | none => simp [step, hc] at h
      | some c =>
          cases hphase : c.phase with
          | replied reply =>
              by_cases hcond : c.parent = none ∧ c.lost = false
              · simp only [step, hc, hphase, if_pos hcond, Option.some.injEq] at h
                exact h ▸ .take id c reply hc hphase hcond.1 hcond.2
              · simp [step, hc, hphase, hcond] at h
          | _ => simp [step, hc, hphase] at h
  | crash v =>
      by_cases hv : v < net.size
      · simp only [step, if_pos hv, Option.some.injEq] at h
        exact h ▸ .crash v hv
      · simp [step, hv] at h
  | pingFails v =>
      by_cases hv : v < net.size ∧ s.up v = true ∧ (s.nodes v).nextNodePort ≠ -1
      · simp only [step, if_pos hv, Option.some.injEq] at h
        exact h ▸ .pingFails v hv.1 hv.2.1 hv.2.2
      · simp only [step, if_neg hv] at h
        cases h
  | recover v =>
      by_cases hv : s.up v = true ∧ s.suspected v = true
      · cases hnext : (s.nodes v).handleNextNodeFailure with
        | mk node message =>
            cases message with
            | none =>
                simp only [step, if_pos hv, hnext, Option.some.injEq] at h
                exact h ▸ .recover v node none hv.1 hv.2 hnext
            | some message =>
                simp only [step, if_pos hv, hnext] at h
                split at h
                · cases h
                  exact .recover v node (some message) hv.1 hv.2 hnext
                · rename_i w hw
                  cases h
                  exact .notify v node message w hv.1 hv.2 hnext (nextUp_eq_some hw).2.1
      · simp only [step, if_neg hv] at h
        cases h

end Chain
end Metadata
end Dfs

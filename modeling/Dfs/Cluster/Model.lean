import Dfs.Client.Client
import Dfs.Metadata.Chain
import Dfs.Storage.StorageNode

/-!
# The whole system

Clients, storage nodes and the metadata chain together.  A process is a call of a client routine,
a program that makes its calls one after the other; a call to a storage node goes through the steps
of `Storage.Conn`, one to a metadata node through those of `Metadata.Chain`.  All of these steps
interleave, connections may be refused and may break, and nodes may crash; what a run may do is a
condition on its steps.
-/

namespace Dfs
namespace Cluster

open Bytes Network Client Storage Metadata Program

/-- Which storage node listens at an endpoint, and the network of the metadata nodes. -/
structure Site where
  storageAt : Bytes → Int → Option Nat
  net : Metadata.Network

/-- The storage node that a call goes to. -/
def Site.storageTarget (site : Site) : Call → Option Nat
  | .store ip port _ _ => site.storageAt ip port
  | .fetch ip port _ => site.storageAt ip port
  | .put _ _ _ => none
  | .lookup _ _ _ => none

/-- The metadata node that a call goes to, and the line it sends. -/
def Site.metadataTarget (site : Site) : Call → Option (Nat × Bytes)
  | .store _ _ _ _ => none
  | .fetch _ _ _ => none
  | .put ip port line => (site.net.resolve ip port).map fun v => (v, line)
  | .lookup ip port line => (site.net.resolve ip port).map fun v => (v, line)

/-- The connection that a process has open. -/
inductive Link where
  | idle
  | storage (i : Nat) (conn : Storage.Conn)
  | metadata (id : Nat)

/-- A call of a client routine: what is left of its program, its calls and their answers so far,
and its connection. -/
structure Proc (J ρ : Type) where
  job : J
  program : Program Call Bytes ρ
  trace : List (Call × Bytes)
  link : Link

/-- `orphans` are the connections to storage nodes that the client is done with and whose handlers
may still be at work, `leftover` what a metadata connection delivers behind the first frame of an
overlong line, and `owner` (for the statements only) the process that opened a metadata
connection. -/
structure State (J ρ : Type) where
  storage : Nat → StorageNode
  orphans : List (Nat × Storage.Conn)
  chain : Chain
  leftover : Nat → Bytes
  owner : Nat → Option Nat
  procs : Nat → Option (Proc J ρ)
  started : Nat

inductive Label (J : Type) where
  | start (job : J)
  /-- a process opens the connection for its next call -/
  | connect (p : Nat)
  /-- the connection cannot be opened -/
  | refuse (p : Nat)
  /-- the next step on a process's connection to a storage node -/
  | transfer (p : Nat)
  /-- the connection of a process to a storage node breaks -/
  | lose (p : Nat)
  /-- a process has the answer to its call and goes on -/
  | finish (p : Nat)
  /-- the handler of an orphaned connection goes on -/
  | late (k : Nat)
  /-- a storage node crashes -/
  | crash (i : Nat)
  /-- a step of the metadata chain -/
  | chain (l : Chain.Label)
  /-- the handler of a metadata connection reads what follows an overlong line -/
  | nextFrame (id : Nat)

namespace State

variable {J ρ : Type}

def launch (nodes : Nat → MetadataNode) : State J ρ :=
  { storage := fun _ => StorageNode.launch
    orphans := []
    chain := Chain.launch nodes
    leftover := fun _ => []
    owner := fun _ => none
    procs := fun _ => none
    started := 0 }

def setProc (s : State J ρ) (p : Nat) (proc : Proc J ρ) : State J ρ :=
  { s with procs := Function.update s.procs p (some proc) }

def setStorage (s : State J ρ) (i : Nat) (node : StorageNode) : State J ρ :=
  { s with storage := Function.update s.storage i node }

end State

section

variable {J ρ : Type}

def Proc.setLink (proc : Proc J ρ) (link : Link) : Proc J ρ :=
  { proc with link := link }

/-- The process once a call is answered. -/
def Proc.answer (proc : Proc J ρ) (c : Call) (next : Bytes → Program Call Bytes ρ) (a : Bytes) :
    Proc J ρ :=
  { proc with
    program := next a
    trace := proc.trace ++ [(c, a)]
    link := .idle }

/-- The steps of the chain that are not a client's. -/
def internal : Chain.Label → Bool
  | .connect _ _ => false
  | .take _ => false
  | _ => true

/-- The state after a process has opened a connection to a metadata node. -/
def dial (s : State J ρ) (p : Nat) (proc : Proc J ρ) (line : Bytes) (chain : Chain) : State J ρ :=
  { s.setProc p (proc.setLink (.metadata s.chain.opened)) with
    chain := chain
    leftover := Function.update s.leftover s.chain.opened (laterBytes line)
    owner := Function.update s.owner s.chain.opened (some p) }

def connect (site : Site) (s : State J ρ) (p : Nat) (proc : Proc J ρ) (c : Call) :
    Option (State J ρ) :=
  match site.storageTarget c, site.metadataTarget c with
  | some i, _ =>
      if (s.storage i).running then
        some (s.setProc p (proc.setLink (.storage i (Conn.opened c.conv))))
      else none
  | none, some (v, line) =>
      (Chain.step site.net s.chain (.connect v (firstFrame line))).map (dial s p proc line)
  | none, none => none

/-- The end of a call to a metadata node. -/
def hangUp (site : Site) (s : State J ρ) (p : Nat) (proc : Proc J ρ) (c : Call)
    (next : Bytes → Program Call Bytes ρ) (id : Nat) : Option (State J ρ) :=
  match s.chain.conns id with
  | none => none
  | some conn =>
      if conn.lost then some (s.setProc p (proc.answer c next []))
      else
        match conn.phase with
        | .closed => some (s.setProc p (proc.answer c next []))
        | .replied reply =>
            (Chain.step site.net s.chain (.take id)).map fun chain =>
              { s.setProc p (proc.answer c next (firstFrame reply)) with chain := chain }
        | _ => none

/-- One step.  The programs are those of the client routines, one for each job. -/
def step (site : Site) (program : J → Program Call Bytes ρ) (s : State J ρ) :
    Label J → Option (State J ρ)
  | .start job =>
      some
        { s.setProc s.started
            { job := job
              program := program job
              trace := []
              link := .idle } with
          started := s.started + 1 }
  | .connect p =>
      match s.procs p with
      | none => none
      | some proc =>
          match proc.link, proc.program with
          | .idle, .call c _ => connect site s p proc c
          | _, _ => none
  | .refuse p =>
      match s.procs p with
      | none => none
      | some proc =>
          match proc.link, proc.program with
          | .idle, .call c next => some (s.setProc p (proc.answer c next []))
          | _, _ => none
  | .transfer p =>
      match s.procs p with
      | none => none
      | some proc =>
          match proc.link with
          | .storage i conn =>
              (conn.advance (s.storage i)).map fun r =>
                (s.setStorage i r.1).setProc p (proc.setLink (.storage i r.2))
          | _ => none
  | .lose p =>
      match s.procs p with
      | none => none
      | some proc =>
          match proc.link with
          | .storage i conn => some (s.setProc p (proc.setLink (.storage i conn.lose)))
          | _ => none
  | .finish p =>
      match s.procs p with
      | none => none
      | some proc =>
          match proc.link, proc.program with
          | .storage i conn, .call c next =>
              match conn.conv with
              | .done a =>
                  some
                    { s.setProc p (proc.answer c next a) with
                      orphans := s.orphans ++ [(i, conn)] }
              | _ => none
          | .metadata id, .call c next => hangUp site s p proc c next id
          | _, _ => none
  | .late k =>
      match s.orphans[k]? with
      | none => none
      | some (i, conn) =>
          (conn.advance (s.storage i)).map fun r =>
            { s.setStorage i r.1 with orphans := s.orphans.set k (i, r.2) }
  | .crash i => some (s.setStorage i (s.storage i).stop)
  | .chain l =>
      if internal l then
        (Chain.step site.net s.chain l).map fun chain => { s with chain := chain }
      else none
  | .nextFrame id =>
      match s.chain.conns id with
      | none => none
      | some conn =>
          -- The handler is back at the top of its loop; no client waits for what it replies.
          if s.leftover id ≠ [] ∧ conn.phase ≠ .received ∧ conn.phase ≠ .closed then
            (Chain.step site.net s.chain (.connect conn.node (recvData (s.leftover id)).1)).map
              fun chain =>
                { s with
                  chain := chain
                  leftover := Function.update (Function.update s.leftover id [])
                    s.chain.opened (recvData (s.leftover id)).2 }
          else none

end

/-! ## Field lemmas -/

section Fields

variable {J ρ : Type} (s : State J ρ) (p i : Nat) (proc : Proc J ρ) (node : StorageNode)

namespace State

@[simp] theorem setProc_storage : (s.setProc p proc).storage = s.storage := rfl
@[simp] theorem setProc_orphans : (s.setProc p proc).orphans = s.orphans := rfl
@[simp] theorem setProc_chain : (s.setProc p proc).chain = s.chain := rfl
@[simp] theorem setProc_leftover : (s.setProc p proc).leftover = s.leftover := rfl
@[simp] theorem setProc_owner : (s.setProc p proc).owner = s.owner := rfl
@[simp] theorem setProc_started : (s.setProc p proc).started = s.started := rfl
@[simp] theorem setProc_procs : (s.setProc p proc).procs =
    Function.update s.procs p (some proc) := rfl

@[simp] theorem setStorage_orphans : (s.setStorage i node).orphans = s.orphans := rfl
@[simp] theorem setStorage_chain : (s.setStorage i node).chain = s.chain := rfl
@[simp] theorem setStorage_leftover : (s.setStorage i node).leftover = s.leftover := rfl
@[simp] theorem setStorage_owner : (s.setStorage i node).owner = s.owner := rfl
@[simp] theorem setStorage_started : (s.setStorage i node).started = s.started := rfl
@[simp] theorem setStorage_procs : (s.setStorage i node).procs = s.procs := rfl
@[simp] theorem setStorage_storage : (s.setStorage i node).storage =
    Function.update s.storage i node := rfl

end State

end Fields

end Cluster
end Dfs

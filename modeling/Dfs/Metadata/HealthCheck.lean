import Dfs.Library.Transition
import Dfs.Metadata.Reconfiguration

/-!
# One node and its health check

A metadata node by itself: commands arrive on any number of connections, each handled under
`chainMutex_` as far as it changes a link, while the health-check thread looks at the next port,
reads the address again to ping it, and recovers under the mutex once the ping has failed.  Commands
come between any two of these steps.

`roles_match_links` says that the role of the node fits its links all along.
`drops_only_failed_iff` says which recoveries drop the link that has failed: the thread does not look
at the link again once it has the mutex, so an `UPDATE_NEXT` that is handled while it pings loses
its link to the failure of the one before.
-/

namespace Dfs
namespace Metadata

open Bytes TextScan

/-! ## Commands -/

/-- A reconfiguration command as `handleClient` reads it. -/
inductive LinkChange where
  | updatePrev (ip : Bytes) (port : Int)
  | updateNext (ip : Bytes) (port : Int)
  | setSkip (ip : Bytes) (port : Int)
  deriving DecidableEq

def LinkChange.port : LinkChange → Int
  | updatePrev _ port => port
  | updateNext _ port => port
  | setSkip _ port => port

def LinkChange.apply (node : MetadataNode) : LinkChange → MetadataNode
  | updatePrev ip port => node.updatePrev ip port
  | updateNext ip port => node.updateNext ip port
  | setSkip ip port => node.setSkip ip port

/-- `iss >> ip >> port`. -/
def readAddress (args : Bytes) : Option (Bytes × Int) := do
  let (ip, s) ← readWord args
  let (port, _) ← readInt32 s
  some (ip, port)

/-- The change of a link that a command asks for; `none` for every other command. -/
def linkChange (command : Bytes) : Option LinkChange :=
  let (op, args) := (readWord command).getD ([], [])
  if op = ascii "UPDATE_PREV" then (readAddress args).map fun a => .updatePrev a.1 a.2
  else if op = ascii "UPDATE_NEXT" then (readAddress args).map fun a => .updateNext a.1 a.2
  else if op = ascii "SET_SKIP" then (readAddress args).map fun a => .setSkip a.1 a.2
  else none

/-- The node after one pass of the loop of `handleClient`. -/
def MetadataNode.handle (node : MetadataNode) (command : Bytes) : MetadataNode :=
  match node.dispatch command with
  | .respond node' _ => node'
  | .put => (node.acceptPut command).getD node
  | _ => node

theorem reconfigure_eq (node : MetadataNode) (args : Bytes)
    (update : MetadataNode → Bytes → Int → MetadataNode) :
    node.reconfigure args update =
      match readAddress args with
      | none => .ignore
      | some a => .respond (update node a.1 a.2) (ascii "ACK") := by
  unfold MetadataNode.reconfigure readAddress
  cases hword : readWord args with
  | none => simp
  | some p =>
      cases hport : readInt32 p.2 with
      | none => simp [hport]
      | some q => simp [hport]

theorem acceptPut_sameLinks (node : MetadataNode) (command : Bytes) :
    node.SameLinks ((node.acceptPut command).getD node) := by
  unfold MetadataNode.acceptPut
  cases MetadataNode.parsePut command with
  | none => rfl
  | some record => exact MetadataNode.SameLinks.storeMetadata node record

/-- A command changes a link and is acknowledged, or it leaves the links as they are. -/
theorem handle_cases (node : MetadataNode) (command : Bytes) :
    (∃ change, linkChange command = some change ∧
        node.dispatch command = .respond (change.apply node) (ascii "ACK")) ∨
      linkChange command = none ∧ node.SameLinks (node.handle command) := by
  cases hcommand : command with
  | nil => exact Or.inr ⟨by decide, rfl⟩
  | cons b bs =>
      rw [← hcommand]
      have hne : command ≠ [] := by simp [hcommand]
      simp only [MetadataNode.handle, MetadataNode.dispatch, linkChange, if_neg hne,
        reconfigure_eq]
      rcases (readWord command).getD ([], []) with ⟨op, args⟩
      dsimp only
      by_cases hlink : op = ascii "UPDATE_PREV" ∨ op = ascii "UPDATE_NEXT" ∨ op = ascii "SET_SKIP"
      · -- The three names differ from each other and from those tested before them.
        have hnames : ascii "UPDATE_PREV" ≠ ascii "PUT" ∧ ascii "UPDATE_PREV" ≠ ascii "GET" ∧
            ascii "UPDATE_PREV" ≠ ascii "PING" ∧ ascii "UPDATE_NEXT" ≠ ascii "PUT" ∧
            ascii "UPDATE_NEXT" ≠ ascii "GET" ∧ ascii "UPDATE_NEXT" ≠ ascii "PING" ∧
            ascii "UPDATE_NEXT" ≠ ascii "UPDATE_PREV" ∧ ascii "SET_SKIP" ≠ ascii "PUT" ∧
            ascii "SET_SKIP" ≠ ascii "GET" ∧ ascii "SET_SKIP" ≠ ascii "PING" ∧
            ascii "SET_SKIP" ≠ ascii "UPDATE_PREV" ∧ ascii "SET_SKIP" ≠ ascii "UPDATE_NEXT" := by
          decide
        cases hargs : readAddress args with
        | none =>
            refine Or.inr ⟨?_, ?_⟩
            · rcases hlink with rfl | rfl | rfl <;> simp [hnames]
            · rcases hlink with rfl | rfl | rfl <;> simp [hnames, MetadataNode.SameLinks.refl]
        | some a =>
            refine Or.inl ?_
            rcases hlink with rfl | rfl | rfl <;> simp [hnames, LinkChange.apply]
      · -- None of the other commands touches the links.
        rcases not_or.1 hlink with ⟨hprev, hrest⟩
        rcases not_or.1 hrest with ⟨hnext, hskip⟩
        refine Or.inr ⟨by simp only [if_neg hprev, if_neg hnext, if_neg hskip], ?_⟩
        simp only [if_neg hprev, if_neg hnext, if_neg hskip]
        by_cases hput : op = ascii "PUT"
        · simp only [if_pos hput]
          exact acceptPut_sameLinks node command
        · simp only [if_neg hput]
          by_cases hget : op = ascii "GET"
          · simp only [if_pos hget]
            cases readWord args with
            | none => rfl
            | some p => rfl
          · simp only [if_neg hget]
            by_cases hping : op = ascii "PING"
            · simp only [if_pos hping, MetadataNode.SameLinks.refl]
            · by_cases hstatus : op = ascii "GET_STATUS"
              · simp only [if_neg hping, if_pos hstatus, MetadataNode.SameLinks.refl]
              · by_cases hdie : op = ascii "DIE"
                · simp only [if_neg hping, if_neg hstatus, if_pos hdie,
                    MetadataNode.SameLinks.refl]
                · simp only [if_neg hping, if_neg hstatus, if_neg hdie,
                    MetadataNode.SameLinks.refl]

/-! ## Steps -/

/-- Where the health-check thread is. -/
inductive Health where
  /-- asleep, or through with a round -/
  | asleep
  /-- has found a next port -/
  | checked
  /-- is pinging the address it has read -/
  | pinging (ip : Bytes) (port : Int)
  /-- the ping to that address has failed -/
  | failed (ip : Bytes) (port : Int)
  deriving DecidableEq

structure Watched where
  node : MetadataNode
  health : Health

namespace Watched

inductive Label where
  /-- a command that arrives on any connection -/
  | command (line : Bytes)
  /-- a round of the health check begins with the test of the next port -/
  | check
  /-- `pingNext` reads the address it connects to -/
  | dial
  | pong
  | noPong
  /-- `handleNextNodeFailure` -/
  | recover
  deriving DecidableEq

/-- One step.  A node that is told to die takes no further ones. -/
def step (s : Watched) : Label → Option Watched
  | .command line =>
      match s.node.dispatch line with
      | .die => none
      | _ => some { s with node := s.node.handle line }
  | .check =>
      if s.health = .asleep then
        some { s with health := if s.node.nextNodePort ≠ -1 then .checked else .asleep }
      else none
  | .dial =>
      if s.health = .checked then
        some { s with health := .pinging s.node.nextNodeIp s.node.nextNodePort }
      else none
  | .pong =>
      match s.health with
      | .pinging _ _ => some { s with health := .asleep }
      | _ => none
  | .noPong =>
      match s.health with
      | .pinging ip port => some { s with health := .failed ip port }
      | _ => none
  | .recover =>
      match s.health with
      | .failed _ _ => some { node := s.node.handleNextNodeFailure.1, health := .asleep }
      | _ => none

inductive Step (s : Watched) : Label → Watched → Prop where
  | command (line : Bytes) : Step s (.command line) { s with node := s.node.handle line }
  | check : s.health = .asleep →
      Step s .check { s with health := if s.node.nextNodePort ≠ -1 then .checked else .asleep }
  | dial : s.health = .checked →
      Step s .dial { s with health := .pinging s.node.nextNodeIp s.node.nextNodePort }
  | pong (ip : Bytes) (port : Int) : s.health = .pinging ip port →
      Step s .pong { s with health := .asleep }
  | noPong (ip : Bytes) (port : Int) : s.health = .pinging ip port →
      Step s .noPong { s with health := .failed ip port }
  | recover (ip : Bytes) (port : Int) : s.health = .failed ip port →
      Step s .recover { node := s.node.handleNextNodeFailure.1, health := .asleep }

theorem step_cases {s s' : Watched} {l : Label} (h : step s l = some s') : Step s l s' := by
  cases l with
  | command line =>
      simp only [step] at h
      split at h
      · cases h
      · cases h
        exact .command line
  | check =>
      simp only [step] at h
      split at h
      · rename_i hasleep
        cases h
        exact .check hasleep
      · cases h
  | dial =>
      simp only [step] at h
      split at h
      · rename_i hchecked
        cases h
        exact .dial hchecked
      · cases h
  | pong =>
      simp only [step] at h
      split at h
      · rename_i ip port hpinging
        cases h
        exact .pong ip port hpinging
      · cases h
  | noPong =>
      simp only [step] at h
      split at h
      · rename_i ip port hpinging
        cases h
        exact .noPong ip port hpinging
      · cases h
  | recover =>
      simp only [step] at h
      split at h
      · rename_i ip port hfailed
        cases h
        exact .recover ip port hfailed
      · cases h

/-- The node as it has been started, its health check not yet awake. -/
def launch (node : MetadataNode) : Watched :=
  { node := node
    health := .asleep }

end Watched

/-! ## Roles and links -/

/-- The role of a node says whether it has a next node, and a node behind another one is no head. -/
structure RolesMatch (node : MetadataNode) : Prop where
  next : node.role = .head ∨ node.role = .middle ↔ node.nextNodePort ≠ -1
  prev : node.prevNodePort ≠ -1 → node.role = .middle ∨ node.role = .tail

/-- The ports that a reconfiguration command names are ports. -/
def PortsInRange : Watched.Label → Bool
  | .command line => (linkChange line).all fun change => 0 ≤ change.port && change.port ≤ 65535
  | _ => true

namespace RolesMatch

variable {node node' : MetadataNode}

theorem launch (nextNodeIp : Bytes) (nextNodePort port : Int) :
    RolesMatch (MetadataNode.launch nextNodeIp nextNodePort port) where
  next := by
    by_cases hnext : nextNodePort = -1 <;> simp [MetadataNode.launch, hnext]
  prev := by simp [MetadataNode.launch]

theorem sameLinks (h : RolesMatch node) (hsame : node.SameLinks node') : RolesMatch node' where
  next := by rw [hsame.role, hsame.nextNodePort]; exact h.next
  prev := by rw [hsame.role, hsame.prevNodePort]; exact h.prev

/-- Each of the three commands keeps the roles right, whatever the role was. -/
theorem apply (h : RolesMatch node) {change : LinkChange} (hport : 0 ≤ change.port) :
    RolesMatch (change.apply node) := by
  have hnext := h.next
  have hprev := h.prev
  cases change with
  | updatePrev ip port =>
      refine ⟨?_, fun _ => ?_⟩
      · cases hrole : node.role <;>
          simp [LinkChange.apply, MetadataNode.updatePrev, hrole] at hnext ⊢ <;> exact hnext
      · cases hrole : node.role <;> simp [LinkChange.apply, MetadataNode.updatePrev, hrole]
  | updateNext ip port =>
      have hpos : 0 ≤ port := hport
      have hne : port ≠ -1 := by omega
      refine ⟨?_, ?_⟩
      · cases hrole : node.role <;>
          simp [LinkChange.apply, MetadataNode.updateNext, hrole, hne]
      · intro hset
        have hcase := hprev hset
        cases hrole : node.role <;>
          simp [LinkChange.apply, MetadataNode.updateNext, hrole] at hcase ⊢
  | setSkip ip port => exact ⟨hnext, hprev⟩

/-- The recovery of a node that has a next one. -/
theorem recover (h : RolesMatch node) (hport : node.nextNodePort ≠ -1) :
    RolesMatch node.handleNextNodeFailure.1 := by
  have hrole := h.next.2 hport
  unfold MetadataNode.handleNextNodeFailure
  by_cases hskip : node.skipToPort ≠ -1
  · rw [if_pos hskip]
    exact ⟨⟨fun _ => hskip, fun _ => hrole⟩, h.prev⟩
  · rw [if_neg hskip]
    refine ⟨?_, fun hprev => ?_⟩
    · by_cases hprev : node.prevNodePort = -1 <;> simp [hprev]
    · have hset : node.prevNodePort ≠ -1 := hprev
      simp [hset]

theorem answers_iff (h : RolesMatch node) : node.mustForward = false ↔ node.servesReads = true := by
  have hnext := h.next
  cases hrole : node.role <;>
    simp_all [MetadataNode.mustForward, MetadataNode.servesReads]

end RolesMatch

/-- The invariant of the roles: the health check is awake only while there is a next node. -/
structure Awake (s : Watched) : Prop where
  roles : RolesMatch s.node
  next : s.health ≠ .asleep → s.node.nextNodePort ≠ -1

theorem LinkChange.next_ne {node : MetadataNode} {change : LinkChange} (hport : 0 ≤ change.port)
    (h : node.nextNodePort ≠ -1) : (change.apply node).nextNodePort ≠ -1 := by
  cases change with
  | updatePrev ip port => exact h
  | updateNext ip port =>
      intro heq
      have hpos : 0 ≤ port := hport
      have hneg : port = -1 := heq
      omega
  | setSkip ip port => exact h

theorem Awake.step {s s' : Watched} {l : Watched.Label} (h : Awake s) (hl : PortsInRange l = true)
    (hstep : Watched.Step s l s') : Awake s' := by
  cases hstep with
  | command line =>
      rcases handle_cases s.node line with ⟨change, hchange, hdispatch⟩ | ⟨_, hsame⟩
      · have hport : 0 ≤ change.port := by
          simp only [PortsInRange, hchange, Option.all_some, Bool.and_eq_true,
            decide_eq_true_eq] at hl
          exact hl.1
        have hnode : s.node.handle line = change.apply s.node := by
          rw [MetadataNode.handle, hdispatch]
        rw [hnode]
        exact ⟨h.roles.apply hport, fun hawake => LinkChange.next_ne hport (h.next hawake)⟩
      · exact ⟨h.roles.sameLinks hsame, fun hawake => by
          rw [hsame.nextNodePort]
          exact h.next hawake⟩
  | check _ =>
      refine ⟨h.roles, fun hawake => ?_⟩
      by_cases hnext : s.node.nextNodePort ≠ -1
      · exact hnext
      · simp [if_neg hnext] at hawake
  | dial hchecked => exact ⟨h.roles, fun _ => h.next (by simp [hchecked])⟩
  | pong ip port _ => exact ⟨h.roles, fun hawake => absurd rfl hawake⟩
  | noPong ip port hpinging => exact ⟨h.roles, fun _ => h.next (by simp [hpinging])⟩
  | recover ip port hfailed =>
      exact ⟨h.roles.recover (h.next (by simp [hfailed])), fun hawake => absurd rfl hawake⟩

/-- In every run of a node its role fits its links, so it answers a `PUT` by itself exactly when it
serves reads. -/
theorem roles_match_links (nextNodeIp : Bytes) (nextNodePort port : Int)
    (tr : List (Watched × Watched.Label)) (s : Watched)
    (h : Run Watched.step (fun _ l => PortsInRange l = true)
      (Watched.launch (MetadataNode.launch nextNodeIp nextNodePort port)) tr s) :
    RolesMatch s.node ∧ (s.node.mustForward = false ↔ s.node.servesReads = true) := by
  have hawake : Awake s := by
    refine h.state_invariant ⟨RolesMatch.launch nextNodeIp nextNodePort port, ?_⟩ ?_
    · exact fun hawake => absurd rfl hawake
    · exact fun _ _ _ _ _ hI hl hs => hI.step hl (Watched.step_cases hs)
  exact ⟨hawake.roles, hawake.roles.answers_iff⟩

/-- A node between two others that loses its next one, recovers, and loses the one behind it. -/
def recoveries : List Watched.Label :=
  [.command (ascii "UPDATE_PREV 127.0.0.1 9001"), .command (ascii "SET_SKIP 127.0.0.1 9004"),
    .check, .dial, .noPong, .recover, .check, .dial, .noPong, .recover]

theorem roles_match_links_recoveries :
    let run := Run.replayed Watched.step
      (Watched.launch (MetadataNode.launch (ascii "127.0.0.1") 9003 9002)) recoveries
    RolesMatch run.2.node ∧ (run.2.node.mustForward = false ↔ run.2.node.servesReads = true) := by
  intro run
  have hrun : Run Watched.step (fun _ l => PortsInRange l = true)
      (Watched.launch (MetadataNode.launch (ascii "127.0.0.1") 9003 9002)) run.1 run.2 :=
    Run.of_labels (L := fun l => PortsInRange l = true) (by decide +kernel) (by decide +kernel)
      fun _ _ hl => hl
  exact roles_match_links (ascii "127.0.0.1") 9003 9002 run.1 run.2 hrun

/-! ## What a recovery drops -/

/-- The address that the last `UPDATE_NEXT` names, of those that are handled since the health check
has last read an address to ping. -/
def updatedSince (labels : List Watched.Label) : Option (Bytes × Int) :=
  labels.foldl (fun updated l =>
    match l with
    | .dial => none
    | .command line =>
        match linkChange line with
        | some (.updateNext ip port) => some (ip, port)
        | _ => updated
    | _ => updated) none

def MetadataNode.nextAddress (node : MetadataNode) : Bytes × Int :=
  (node.nextNodeIp, node.nextNodePort)

/-- Every recovery of a run drops the link whose ping has failed, and so a link that an
`UPDATE_NEXT` has set only when a ping to that address has failed. -/
structure DropsOnlyFailed (tr : List (Watched × Watched.Label)) : Prop where
  link : ∀ tr₁ s tr₂, tr = tr₁ ++ (s, .recover) :: tr₂ →
    s.health = .failed s.node.nextNodeIp s.node.nextNodePort
  successor : ∀ tr₁ s₁ line tr₂ s₂ tr₃ ip port,
    tr = tr₁ ++ (s₁, .command line) :: tr₂ ++ (s₂, .recover) :: tr₃ →
    linkChange line = some (.updateNext ip port) → s₂.node.nextAddress = (ip, port) →
    ∃ s, (s, .noPong) ∈ tr₁ ++ (s₁, .command line) :: tr₂ ∧ s.health = .pinging ip port

/-- When a recovery comes, the last `UPDATE_NEXT` since the ping, if there was any, names the
address that was pinged. -/
def UpdatesNamePinged (tr : List (Watched × Watched.Label)) : Prop :=
  ∀ tr₁ s tr₂ ip port a, tr = tr₁ ++ (s, .recover) :: tr₂ → s.health = .failed ip port →
    updatedSince (tr₁.map Prod.snd) = some a → a = (ip, port)

/-- What the health check has in hand, and where it has it from. -/
structure Tracks (tr : List (Watched × Watched.Label)) (s : Watched) : Prop where
  next : ∀ ip port, s.health = .pinging ip port ∨ s.health = .failed ip port →
    s.node.nextAddress = (updatedSince (tr.map Prod.snd)).getD (ip, port)
  failed : ∀ ip port, s.health = .failed ip port →
    ∃ s', (s', .noPong) ∈ tr ∧ s'.health = .pinging ip port

theorem updatedSince_concat (labels : List Watched.Label) (l : Watched.Label) :
    updatedSince (labels ++ [l]) =
      match l with
      | .dial => none
      | .command line =>
          match linkChange line with
          | some (.updateNext ip port) => some (ip, port)
          | _ => updatedSince labels
      | _ => updatedSince labels := by
  rw [updatedSince, List.foldl_append, List.foldl_cons, List.foldl_nil, ← updatedSince]

theorem Tracks.step {tr : List (Watched × Watched.Label)} {s s' : Watched} {l : Watched.Label}
    (h : Tracks tr s) (hstep : Watched.Step s l s') : Tracks (tr ++ [(s, l)]) s' := by
  have hkeep : ∀ ip port, s.health = .failed ip port →
      ∃ t, (t, .noPong) ∈ tr ++ [(s, l)] ∧ t.health = .pinging ip port := by
    intro ip port hfailed
    rcases h.failed ip port hfailed with ⟨t, ht, hpinging⟩
    exact ⟨t, List.mem_append_left _ ht, hpinging⟩
  cases hstep with
  | command line =>
      -- A command moves the next address exactly where `updatedSince` follows it.
      refine ⟨fun ip port hhealth => ?_, hkeep⟩
      have hold := h.next ip port hhealth
      rw [List.map_append, List.map_singleton, updatedSince_concat]
      rcases handle_cases s.node line with ⟨change, hchange, hdispatch⟩ | ⟨hchange, hsame⟩
      · have hnode : s.node.handle line = change.apply s.node := by
          rw [MetadataNode.handle, hdispatch]
        simp only [hchange, hnode]
        cases change with
        | updatePrev ip' port' => exact hold
        | updateNext ip' port' => rfl
        | setSkip ip' port' => exact hold
      · simp only [hchange]
        rw [← hold, MetadataNode.nextAddress, hsame.nextNodeIp, hsame.nextNodePort]
        rfl
  | check _ =>
      -- No address is pinged yet.
      by_cases hnext : s.node.nextNodePort ≠ -1
      · exact ⟨by simp [hnext], by simp [hnext]⟩
      · exact ⟨by simp [hnext], by simp [hnext]⟩
  | dial _ =>
      -- The pinged address is read off the node, and nothing has updated it since.
      refine ⟨fun ip port hhealth => ?_, by simp⟩
      rw [List.map_append, List.map_singleton, updatedSince_concat]
      simp only [Health.pinging.injEq, reduceCtorEq, or_false] at hhealth
      rcases hhealth with ⟨rfl, rfl⟩
      rfl
  | pong ip port _ => exact ⟨by simp, by simp⟩
  | noPong ip port hpinging =>
      -- The failed address is the one that this step has pinged.
      refine ⟨fun ip' port' hhealth => ?_, fun ip' port' hfailed => ?_⟩
      · simp only [reduceCtorEq, Health.failed.injEq, false_or] at hhealth
        rcases hhealth with ⟨rfl, rfl⟩
        rw [List.map_append, List.map_singleton, updatedSince_concat]
        exact h.next ip port (Or.inl hpinging)
      · cases hfailed
        exact ⟨s, by simp, hpinging⟩
  | recover ip port _ => exact ⟨by simp, by simp⟩

theorem Tracks.run {node : MetadataNode} {P : Watched → Watched.Label → Prop}
    {tr : List (Watched × Watched.Label)} {s : Watched}
    (h : Run Watched.step P (Watched.launch node) tr s) : Tracks tr s := by
  refine h.invariant ⟨by simp [Watched.launch], by simp [Watched.launch]⟩ ?_
  exact fun _ _ _ _ hI _ hs => hI.step (Watched.step_cases hs)

/-- From any state of the node: the recoveries of a run drop only links whose ping has failed,
exactly when none of them comes after an `UPDATE_NEXT` to another address than the one pinged. -/
theorem drops_only_failed_iff (node : MetadataNode) (tr : List (Watched × Watched.Label))
    (s : Watched) (h : Run Watched.step (fun _ _ => True) (Watched.launch node) tr s) :
    DropsOnlyFailed tr ↔ UpdatesNamePinged tr := by
  -- What is known where a recovery comes.
  have hat : ∀ tr₁ s tr₂, tr = tr₁ ++ (s, .recover) :: tr₂ →
      Tracks tr₁ s ∧ ∃ ip port, s.health = .failed ip port := by
    intro tr₁ s tr₂ htr
    rw [htr] at h
    rcases h.at_step with ⟨hrun, _, s', hs⟩
    refine ⟨Tracks.run hrun, ?_⟩
    cases Watched.step_cases hs with
    | recover ip port hfailed => exact ⟨ip, port, hfailed⟩
  constructor
  · intro hdrops tr₁ s tr₂ ip port a htr hfailed hupdated
    have hnext := (hat tr₁ s tr₂ htr).1.next ip port (Or.inr hfailed)
    have hlink := hdrops.link tr₁ s tr₂ htr
    rw [hfailed, Health.failed.injEq] at hlink
    rw [hupdated, Option.getD_some] at hnext
    rw [← hnext, MetadataNode.nextAddress, hlink.1, hlink.2]
  · intro hnames
    have hlink : ∀ tr₁ s tr₂, tr = tr₁ ++ (s, .recover) :: tr₂ →
        s.health = .failed s.node.nextNodeIp s.node.nextNodePort := by
      intro tr₁ s tr₂ htr
      rcases hat tr₁ s tr₂ htr with ⟨htracks, ip, port, hfailed⟩
      have hnext : s.node.nextAddress = (ip, port) := by
        rw [htracks.next ip port (Or.inr hfailed)]
        cases hupdated : updatedSince (tr₁.map Prod.snd) with
        | none => rfl
        | some a => exact hnames tr₁ s tr₂ ip port a htr hfailed hupdated
      rw [MetadataNode.nextAddress, Prod.mk.injEq] at hnext
      rw [hfailed, hnext.1, hnext.2]
    refine ⟨hlink, ?_⟩
    intro tr₁ s₁ line tr₂ s₂ tr₃ ip port htr _ hnext
    have hfailed := hlink _ s₂ tr₃ htr
    rw [MetadataNode.nextAddress, Prod.mk.injEq] at hnext
    rw [hnext.1, hnext.2] at hfailed
    exact (hat _ s₂ tr₃ htr).1.failed ip port hfailed

/-- A head whose next node fails, and is replaced before or during the recovery. -/
def head : Watched :=
  Watched.launch (MetadataNode.launch (ascii "127.0.0.1") 9002 9001)

def replacedBefore : List Watched.Label :=
  [.command (ascii "UPDATE_NEXT 127.0.0.1 9003"), .check, .dial, .noPong, .recover]

def replacedDuring : List Watched.Label :=
  [.check, .dial, .noPong, .command (ascii "UPDATE_NEXT 127.0.0.1 9003"), .recover]

theorem drops_only_failed_replacedBefore :
    DropsOnlyFailed (Run.replayed Watched.step head replacedBefore).1 ↔
      UpdatesNamePinged (Run.replayed Watched.step head replacedBefore).1 := by
  have hrun : Run Watched.step (fun _ _ => True) head
      (Run.replayed Watched.step head replacedBefore).1
      (Run.replayed Watched.step head replacedBefore).2 :=
    Run.of_replayed (by decide +kernel) fun _ _ => trivial
  exact drops_only_failed_iff _ _ _ hrun

/-- The ping to the first next node has failed when the new one is set and acknowledged, and then
the recovery drops the new one. -/
theorem acknowledged_successor_dropped :
    let run := Run.replayed Watched.step head replacedDuring
    Run Watched.step (fun _ _ => True) head run.1 run.2 ∧
      run.2.node.nextNodePort = -1 ∧ run.2.node.role = .single ∧ ¬ DropsOnlyFailed run.1 := by
  intro run
  refine ⟨Run.of_replayed (by decide +kernel) fun _ _ => trivial, by decide +kernel,
    by decide +kernel, fun hdrops => ?_⟩
  have hlast : (run.1.getLast?.map fun e => (e.2, e.1.health, e.1.node.nextAddress)) =
      some (.recover, .failed (ascii "127.0.0.1") 9002, (ascii "127.0.0.1", 9003)) := by
    decide +kernel
  rcases Option.map_eq_some_iff.1 hlast with ⟨⟨s, l⟩, hget, heq⟩
  rcases List.getLast?_eq_some_iff.1 hget with ⟨tr₁, hsplit⟩
  simp only [Prod.mk.injEq] at heq
  rcases heq with ⟨rfl, hhealth, hnext⟩
  have hlink := hdrops.link tr₁ s [] hsplit
  rw [hhealth, Health.failed.injEq] at hlink
  rw [MetadataNode.nextAddress, Prod.mk.injEq] at hnext
  exact absurd (hlink.2.trans hnext.2) (by decide)

end Metadata
end Dfs

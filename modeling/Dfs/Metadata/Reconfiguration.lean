import Dfs.Metadata.FailureFree

/-!
# Reconfiguration of the chain

The commands that change the links of a node as texts, what a node makes of them, and what a step
of the chain can do to the links of a node: nothing, unless a handler serves one of these commands
or the health check recovers.  Likewise for a connection: what a step can make of one, and how one
can come into being.
-/

namespace Dfs
namespace Metadata

open Bytes TextScan

/-! ## Commands -/

/-- A reconfiguration command: its name, an ip and a port. -/
def linkCommand (op ip : Bytes) (port : Int) : Bytes :=
  op ++ 32 :: (ip ++ 32 :: showInt port)

/-- The address of a listening node, as a command spells it. -/
structure IsAddress (ip : Bytes) (port : Int) : Prop where
  word : IsWord ip
  pos : 0 < port
  lt : port < 65536

namespace MetadataNode

section

variable {node : MetadataNode} {ip : Bytes} {port : Int}

theorem reconfigure_address (h : IsAddress ip port)
    (update : MetadataNode → Bytes → Int → MetadataNode) :
    node.reconfigure (32 :: (ip ++ 32 :: showInt port)) update =
      .respond (update node ip port) (ascii "ACK") := by
  have hlow : (-2 ^ 31 : Int) ≤ port := le_trans (by norm_num) h.pos.le
  have hhigh : port ≤ (2 ^ 31 - 1 : Int) := le_trans h.lt.le (by norm_num)
  have hport : readInt32 (showInt port) = some (port, []) := by
    have hread := readInt_showInt_endsWord hlow hhigh endsWord_nil
    rwa [List.append_nil] at hread
  simp [reconfigure, readWord_append_space h.word, hport]

theorem linkCommand_ne_nil (op : Bytes) : linkCommand op ip port ≠ [] := by
  simp [linkCommand]

theorem dispatch_updatePrev (h : IsAddress ip port) :
    node.dispatch (linkCommand (ascii "UPDATE_PREV") ip port) =
      .respond (node.updatePrev ip port) (ascii "ACK") := by
  have hword : readWord (linkCommand (ascii "UPDATE_PREV") ip port) =
      some (ascii "UPDATE_PREV", 32 :: (ip ++ 32 :: showInt port)) :=
    readWord_append_space (by decide +kernel)
  have hne : ascii "UPDATE_PREV" ≠ ascii "PUT" ∧ ascii "UPDATE_PREV" ≠ ascii "GET" ∧
      ascii "UPDATE_PREV" ≠ ascii "PING" := by decide
  simp [dispatch, linkCommand_ne_nil, hword, hne, reconfigure_address h]

theorem dispatch_updateNext (h : IsAddress ip port) :
    node.dispatch (linkCommand (ascii "UPDATE_NEXT") ip port) =
      .respond (node.updateNext ip port) (ascii "ACK") := by
  have hword : readWord (linkCommand (ascii "UPDATE_NEXT") ip port) =
      some (ascii "UPDATE_NEXT", 32 :: (ip ++ 32 :: showInt port)) :=
    readWord_append_space (by decide +kernel)
  have hne : ascii "UPDATE_NEXT" ≠ ascii "PUT" ∧ ascii "UPDATE_NEXT" ≠ ascii "GET" ∧
      ascii "UPDATE_NEXT" ≠ ascii "PING" ∧ ascii "UPDATE_NEXT" ≠ ascii "UPDATE_PREV" := by decide
  simp [dispatch, linkCommand_ne_nil, hword, hne, reconfigure_address h]

theorem dispatch_setSkip (h : IsAddress ip port) :
    node.dispatch (linkCommand (ascii "SET_SKIP") ip port) =
      .respond (node.setSkip ip port) (ascii "ACK") := by
  have hword : readWord (linkCommand (ascii "SET_SKIP") ip port) =
      some (ascii "SET_SKIP", 32 :: (ip ++ 32 :: showInt port)) :=
    readWord_append_space (by decide +kernel)
  have hne : ascii "SET_SKIP" ≠ ascii "PUT" ∧ ascii "SET_SKIP" ≠ ascii "GET" ∧
      ascii "SET_SKIP" ≠ ascii "PING" ∧ ascii "SET_SKIP" ≠ ascii "UPDATE_PREV" ∧
      ascii "SET_SKIP" ≠ ascii "UPDATE_NEXT" := by decide
  simp [dispatch, linkCommand_ne_nil, hword, hne, reconfigure_address h]

end

/-- The node after it has handled a command. -/
def receive (node : MetadataNode) (command : Bytes) : MetadataNode :=
  match node.dispatch command with
  | .respond node' _ => node'
  | _ => node

/-! ## Links -/

/-- Two states of a node that differ in the store at most. -/
def SameLinks (node node' : MetadataNode) : Prop :=
  node' = { node with metadataStore := node'.metadataStore }

namespace SameLinks

variable {node node' : MetadataNode}

theorem refl (node : MetadataNode) : SameLinks node node := rfl

theorem trans {node'' : MetadataNode} (h : SameLinks node node') (h' : SameLinks node' node'') :
    SameLinks node node'' := by
  rw [SameLinks] at h h' ⊢
  rw [h', h]

theorem storeMetadata (node : MetadataNode) (record : FileMetadata) :
    SameLinks node (node.storeMetadata record) := rfl

theorem nextNodeIp (h : SameLinks node node') : node'.nextNodeIp = node.nextNodeIp := by rw [h]

theorem nextNodePort (h : SameLinks node node') : node'.nextNodePort = node.nextNodePort := by
  rw [h]

theorem prevNodePort (h : SameLinks node node') : node'.prevNodePort = node.prevNodePort := by
  rw [h]

theorem role (h : SameLinks node node') : node'.role = node.role := by rw [h]

theorem mustForward (h : SameLinks node node') : node'.mustForward = node.mustForward := by
  simp [MetadataNode.mustForward, h.role, h.nextNodePort]

theorem servesReads (h : SameLinks node node') : node'.servesReads = node.servesReads := by
  simp [MetadataNode.servesReads, h.role]

end SameLinks

theorem isRequest_of_request {command : Bytes} {op : Op} (h : request command = some op) :
    IsRequest command := by
  unfold request at h
  cases hword : readWord command with
  | none => simp [hword] at h
  | some p =>
      rcases p with ⟨name, args⟩
      by_cases hput : name = ascii "PUT"
      · exact ⟨args, Or.inl (by rw [hword, hput])⟩
      · by_cases hget : name = ascii "GET"
        · exact ⟨args, Or.inr (by rw [hword, hget])⟩
        · simp [hword, hput, hget] at h

/-- A request leaves the node it is sent to as it is. -/
theorem not_respond_of_isRequest {command : Bytes} (h : IsRequest command)
    (node node' : MetadataNode) (reply : Bytes) : node.dispatch command ≠ .respond node' reply := by
  intro hdispatch
  have hrequest := h.dispatch node
  simp [hdispatch] at hrequest

/-- The notice of the health check stores nothing. -/
theorem request_notice {node node' : MetadataNode} {message : Bytes}
    (h : node.handleNextNodeFailure = (node', some message)) (r : FileMetadata) :
    request message ≠ some (.put r) := by
  intro hr
  rcases MetadataNode.dispatch_eq_put.1 ((request_eq_put node).1 hr).1 with ⟨rest, hword⟩
  unfold MetadataNode.handleNextNodeFailure at h
  split at h
  · cases h
    have hline : ascii "UPDATE_PREV 127.0.0.1 " ++ showInt node.myPort =
        ascii "UPDATE_PREV" ++ 32 :: (ascii "127.0.0.1 " ++ showInt node.myPort) := by
      have hascii : ascii "UPDATE_PREV 127.0.0.1 " =
          ascii "UPDATE_PREV" ++ 32 :: ascii "127.0.0.1 " := by decide
      rw [hascii, List.append_assoc, List.cons_append]
    rw [hline, readWord_append_space (by decide +kernel)] at hword
    have hne : ascii "UPDATE_PREV" ≠ ascii "PUT" := by decide
    exact hne (congrArg Prod.fst (Option.some.inj hword))
  · cases h

end MetadataNode

namespace Chain

open MetadataNode

variable {net : Network} {s s' : Chain} {l : Label} {v : Nat}

/-- What a step does to the links of a node. -/
inductive Relinks (s : Chain) (v : Nat) : Label → MetadataNode → Prop where
  | keep (l : Label) (node : MetadataNode) : SameLinks (s.nodes v) node → Relinks s v l node
  | respond (id : Nat) (c : Conn) (node : MetadataNode) (reply : Bytes) : s.conns id = some c →
      c.node = v → (s.nodes v).dispatch c.command = .respond node reply →
      Relinks s v (.serve id) node
  | recover : s.suspected v = true → Relinks s v (.recover v) (s.nodes v).handleNextNodeFailure.1

theorem Step.relinks (h : Step net s l s') (v : Nat) : Relinks s v l (s'.nodes v) := by
  cases h with
  | store id c record _ _ _ _ _ =>
      refine .keep _ _ ?_
      by_cases hv : v = c.node
      · subst hv
        simpa [Chain.storeRecord] using SameLinks.storeMetadata (s.nodes c.node) record
      · simpa [Chain.storeRecord, hv] using SameLinks.refl (s.nodes v)
  | respond id c node reply hc _ _ hdispatch =>
      by_cases hv : v = c.node
      · subst hv
        simpa using Relinks.respond id c node reply hc rfl hdispatch
      · simpa [hv] using Relinks.keep _ _ (SameLinks.refl (s.nodes v))
  | recover w node message _ hsuspected hnext =>
      by_cases hv : v = w
      · subst hv
        simpa [hnext] using Relinks.recover (s := s) hsuspected
      · simpa [hv] using Relinks.keep _ _ (SameLinks.refl (s.nodes v))
  | notify w node message _ _ hsuspected hnext _ =>
      by_cases hv : v = w
      · subst hv
        simpa [hnext] using Relinks.recover (s := s) hsuspected
      · simpa [hv] using Relinks.keep _ _ (SameLinks.refl (s.nodes v))
  | _ => exact .keep _ _ (SameLinks.refl (s.nodes v))

/-! ## Connections -/

/-- The connection that a client opens. -/
theorem conn_of_connect {command : Bytes} (h : step net s (.connect v command) = some s') :
    ∃ c, s'.conns s.opened = some c ∧ c.node = v ∧ c.command = command ∧ c.parent = none ∧
      c.origin = s.opened ∧ c.phase = .received ∧ c.lost = false := by
  cases step_cases h
  exact ⟨_, Function.update_self .., rfl, rfl, rfl, rfl, rfl, rfl⟩

/-- The commands on the connections: those of clients, and notices of the health check. -/
theorem Step.command (h : Step net s l s') {nodes : Nat → MetadataNode}
    (hbasic : Basic net nodes s) {P : Conn → Prop}
    (hP : ∀ id c, s.conns id = some c → IsRequest c.command ∨ P c)
    (hkeep : ∀ c c', c.node = c'.node → c.command = c'.command → P c' → P c)
    (hopens : ∀ c, Opens net s l c → c.parent = none → IsRequest c.command ∨ P c)
    {k : Nat} {d : Conn} (hd : s'.conns k = some d) : IsRequest d.command ∨ P d := by
  rcases h.conn hd with ⟨_, hopen⟩ | ⟨d', hd', hnode, hcommand, _⟩
  · cases hopen with
    | forward id c w hc hforwarding _ =>
        -- Only a `PUT` is forwarded.
        rcases hbasic.active id c hc (by simp [hforwarding, Phase.Active]) with ⟨r, hr⟩
        exact Or.inl (isRequest_of_request hr)
    | client v command hv => exact hopens _ (.client v command hv) rfl
    | notice v node message w hsuspected hrecover =>
        exact hopens _ (.notice v node message w hsuspected hrecover) rfl
  · rcases hP k d' hd' with hrequest | hp
    · exact Or.inl (hcommand ▸ hrequest)
    · exact Or.inr (hkeep d d' hnode hcommand hp)

/-! ## What never comes back -/

/-- A crashed node stays down. -/
theorem Step.up_of_up (h : Step net s l s') (hup : s'.up v = true) : s.up v = true := by
  cases h with
  | crash w _ =>
      by_cases hv : v = w
      · subst hv
        simp at hup
      · simpa [hv] using hup
  | _ => exact hup

theorem log_sublist_of_run {P : Chain → Label → Prop} {tr : List (Chain × Label)}
    (h : Run (Chain.step net) P s tr s') : s.log.Sublist s'.log :=
  h.state_invariant (I := fun s' => s.log.Sublist s'.log) (List.Sublist.refl _)
    fun _ _ _ _ _ hI _ hs => hI.trans (step_cases hs).log_sublist

/-- No connection is forgotten. -/
theorem persist_of_run {nodes : Nat → MetadataNode} {P P' : Chain → Label → Prop}
    {tr tr' : List (Chain × Label)} (h : Run (Chain.step net) P (launch nodes) tr s)
    (h' : Run (Chain.step net) P' s tr' s') : Persist s s' := by
  have hrun := h.mono (Q := fun _ _ => True) fun _ _ _ => trivial
  refine (h'.mono (Q := fun _ _ => True) fun _ _ _ => trivial).state_invariant
    (I := Persist s) (Persist.refl s) ?_
  intro tr'' t l t' hrun' hpersist _ hs
  exact hpersist.trans ((step_cases hs).persist (Basic.run (hrun.trans hrun')))

theorem up_of_up_of_run {P : Chain → Label → Prop} {tr : List (Chain × Label)}
    (h : Run (Chain.step net) P s tr s') (hup : s'.up v = true) : s.up v = true := by
  have hrun : ∀ v, s'.up v = true → s.up v = true :=
    h.state_invariant (I := fun s' => ∀ v, s'.up v = true → s.up v = true) (fun _ hv => hv)
      fun _ _ _ _ _ hI _ hs v hv => hI v ((step_cases hs).up_of_up hv)
  exact hrun v hup

end Chain
end Metadata
end Dfs

import Dfs.Metadata.Invariants

/-!
# Chains without failures

The chain as the programs launch it, with requests of clients, steps of handlers and replies being
read, and nothing else.  A `PUT` then travels from the node it was sent to up to the last node, one
connection to each, and the acknowledgement comes back the same way, so it comes back only after
every node on the way has stored the record once.
-/

namespace Dfs
namespace Metadata

open Bytes TextScan

/-- Every node but the last forwards to the one after it and serves no reads; the last one serves
reads and forwards nothing. -/
structure Wired (net : Network) (nodes : Nat → MetadataNode) : Prop where
  size_pos : 0 < net.size
  inner : ∀ v, v + 1 < net.size → (nodes v).mustForward = true ∧ (nodes v).servesReads = false ∧
    net.resolve (nodes v).nextNodeIp (nodes v).nextNodePort = some (v + 1)
  last : ∀ v, v + 1 = net.size → (nodes v).mustForward = false ∧ (nodes v).servesReads = true

/-- The node behind port `9001 + v` of the local machine is node `v`. -/
def localNet (n : Nat) : Network where
  size := n
  resolve := fun _ port =>
    if 9001 ≤ port ∧ port < 9001 + n then some (port - 9001).toNat else none

/-- The nodes of the local chain, each started with the port of the next one. -/
def localNodes (n v : Nat) : MetadataNode :=
  if v + 1 < n then MetadataNode.launch (ascii "127.0.0.1") (9002 + v) (9001 + v)
  else MetadataNode.launch [] (-1) (9001 + v)

theorem store_localNodes (n v : Nat) : (localNodes n v).metadataStore = fun _ => none := by
  unfold localNodes
  split <;> rfl

theorem wired_local {n : Nat} (hn : 0 < n) : Wired (localNet n) (localNodes n) where
  size_pos := hn
  inner := by
    intro v hv
    have hport : (9002 + v : Int) ≠ -1 := by omega
    have hnext : (9001 : Int) ≤ 9002 + v ∧ (9002 + v : Int) < 9001 + n := by
      have : v + 1 < n := hv
      omega
    have hindex : ((9002 + v : Int) - 9001).toNat = v + 1 := by omega
    have hnode : localNodes n v =
        MetadataNode.launch (ascii "127.0.0.1") (9002 + v) (9001 + v) := if_pos hv
    rw [hnode]
    refine ⟨?_, ?_, ?_⟩
    · simp [MetadataNode.mustForward, MetadataNode.launch, hport]
    · simp [MetadataNode.servesReads, MetadataNode.launch, hport]
    · simp [localNet, MetadataNode.launch, hnext, hindex]
  last := by
    intro v hv
    have hnode : localNodes n v = MetadataNode.launch [] (-1) (9001 + v) :=
      if_neg (by rw [show n = v + 1 from hv.symm]; exact lt_irrefl _)
    rw [hnode]
    exact ⟨rfl, rfl⟩

/-- A `PUT` or a `GET`, well formed or not. -/
def IsRequest (command : Bytes) : Prop :=
  ∃ s, readWord command = some (ascii "PUT", s) ∨ readWord command = some (ascii "GET", s)

instance (command : Bytes) : Decidable (IsRequest command) :=
  decidable_of_iff
    ((readWord command).map Prod.fst = some (ascii "PUT") ∨
      (readWord command).map Prod.fst = some (ascii "GET")) (by
    unfold IsRequest
    cases readWord command with
    | none => simp
    | some p => simp [Prod.ext_iff, exists_or])

theorem IsRequest.dispatch {command : Bytes} (h : IsRequest command) (node : MetadataNode) :
    node.dispatch command = .put ∨ (∃ f, node.dispatch command = .get f) ∨
      node.dispatch command = .ignore := by
  rcases h with ⟨s, hput | hget⟩
  · exact Or.inl (MetadataNode.dispatch_eq_put.2 ⟨s, hput⟩)
  · refine Or.inr ?_
    have hne : command ≠ [] := by
      rintro rfl
      simp [readWord, skipSpace] at hget
    have hput : ascii "GET" ≠ ascii "PUT" := by decide
    cases hname : readWord s with
    | none => exact Or.inr (by simp [MetadataNode.dispatch, hne, hget, hput, hname])
    | some p => exact Or.inl ⟨p.1, by simp [MetadataNode.dispatch, hne, hget, hput, hname]⟩

namespace Chain

/-- Clients send requests and read replies, and handlers work. -/
def FailureFree (_ : Chain) : Label → Prop
  | .connect _ command => IsRequest command
  | .serve _ => True
  | .take _ => True
  | _ => False

instance (s : Chain) (l : Label) : Decidable (FailureFree s l) :=
  match l with
  | .connect _ command => inferInstanceAs (Decidable (IsRequest command))
  | .serve _ => inferInstanceAs (Decidable True)
  | .take _ => inferInstanceAs (Decidable True)
  | .refuse _ => inferInstanceAs (Decidable False)
  | .lose _ => inferInstanceAs (Decidable False)
  | .crash _ => inferInstanceAs (Decidable False)
  | .pingFails _ => inferInstanceAs (Decidable False)
  | .recover _ => inferInstanceAs (Decidable False)

/-! ## The wiring stays -/

structure Wires (net : Network) (nodes : Nat → MetadataNode) (s : Chain) : Prop where
  mustForward : ∀ v, (s.nodes v).mustForward = (nodes v).mustForward
  servesReads : ∀ v, (s.nodes v).servesReads = (nodes v).servesReads
  nextIp : ∀ v, (s.nodes v).nextNodeIp = (nodes v).nextNodeIp
  nextPort : ∀ v, (s.nodes v).nextNodePort = (nodes v).nextNodePort
  up : ∀ v, s.up v = true
  kept : ∀ id c, s.conns id = some c → c.lost = false
  requests : ∀ id c, s.conns id = some c → IsRequest c.command
  notClosed : ∀ id c, s.conns id = some c → c.phase ≠ .closed
  forwarding : ∀ id c, s.conns id = some c → c.phase = .forwarding → c.node + 1 < net.size
  reading : ∀ id c f, s.conns id = some c → c.phase = .reading f → c.node + 1 = net.size

section

variable {net : Network} {nodes : Nat → MetadataNode} {s s' : Chain} {l : Label}
  {tr : List (Chain × Label)}

theorem wires_launch : Wires net nodes (launch nodes) where
  mustForward := fun _ => rfl
  servesReads := fun _ => rfl
  nextIp := fun _ => rfl
  nextPort := fun _ => rfl
  up := fun _ => rfl
  kept := by simp [launch]
  requests := by simp [launch]
  notClosed := by simp [launch]
  forwarding := by simp [launch]
  reading := by simp [launch]

theorem Wires.setPhase (h : Wires net nodes s) {id : Nat} {c : Conn} (hc : s.conns id = some c)
    {phase : Phase} (hclosed : phase ≠ .closed)
    (hforward : phase = .forwarding → c.node + 1 < net.size)
    (hreading : ∀ f, phase = .reading f → c.node + 1 = net.size) :
    Wires net nodes (s.setPhase id c phase) where
  mustForward := h.mustForward
  servesReads := h.servesReads
  nextIp := h.nextIp
  nextPort := h.nextPort
  up := h.up
  kept := by
    intro k d hd
    rcases setPhase_conn hd with ⟨rfl, rfl⟩ | ⟨_, hd⟩
    · exact h.kept k c hc
    · exact h.kept k d hd
  requests := by
    intro k d hd
    rcases setPhase_conn hd with ⟨rfl, rfl⟩ | ⟨_, hd⟩
    · exact h.requests k c hc
    · exact h.requests k d hd
  notClosed := by
    intro k d hd
    rcases setPhase_conn hd with ⟨rfl, rfl⟩ | ⟨_, hd⟩
    · exact hclosed
    · exact h.notClosed k d hd
  forwarding := by
    intro k d hd hphase
    rcases setPhase_conn hd with ⟨rfl, rfl⟩ | ⟨_, hd⟩
    · exact hforward hphase
    · exact h.forwarding k d hd hphase
  reading := by
    intro k d f hd hphase
    rcases setPhase_conn hd with ⟨rfl, rfl⟩ | ⟨_, hd⟩
    · exact hreading f hphase
    · exact h.reading k d f hd hphase

theorem Wires.addConn (h : Wires net nodes s) {c : Conn} (hlost : c.lost = false)
    (hphase : c.phase = .received) (hrequest : IsRequest c.command) :
    Wires net nodes (s.addConn c) where
  mustForward := h.mustForward
  servesReads := h.servesReads
  nextIp := h.nextIp
  nextPort := h.nextPort
  up := h.up
  kept := by
    intro k d hd
    rcases addConn_conn hd with ⟨rfl, rfl⟩ | ⟨_, hd⟩
    · exact hlost
    · exact h.kept k d hd
  requests := by
    intro k d hd
    rcases addConn_conn hd with ⟨rfl, rfl⟩ | ⟨_, hd⟩
    · exact hrequest
    · exact h.requests k d hd
  notClosed := by
    intro k d hd
    rcases addConn_conn hd with ⟨rfl, rfl⟩ | ⟨_, hd⟩
    · simp [hphase]
    · exact h.notClosed k d hd
  forwarding := by
    intro k d hd hforward
    rcases addConn_conn hd with ⟨rfl, rfl⟩ | ⟨_, hd⟩
    · cases hphase.symm.trans hforward
    · exact h.forwarding k d hd hforward
  reading := by
    intro k d f hd hreading
    rcases addConn_conn hd with ⟨rfl, rfl⟩ | ⟨_, hd⟩
    · cases hphase.symm.trans hreading
    · exact h.reading k d f hd hreading

theorem Wires.storeRecord (h : Wires net nodes s) {id : Nat} {c : Conn} (hc : s.conns id = some c)
    (r : FileMetadata) : Wires net nodes (s.storeRecord id c r) := by
  have hphase : Wires net nodes (s.setPhase id c .stored) := h.setPhase hc (by simp) (by simp) (by simp)
  have hnodes : ∀ v, ∃ node, (s.storeRecord id c r).nodes v = node ∧
      (node = s.nodes v ∨ node = (s.nodes v).storeMetadata r) := by
    intro v
    refine ⟨_, rfl, ?_⟩
    by_cases hv : v = c.node
    · subst hv
      exact Or.inr (by simp [Chain.storeRecord])
    · exact Or.inl (by simp [Chain.storeRecord, hv])
  refine ⟨?_, ?_, ?_, ?_, h.up, hphase.kept, hphase.requests, hphase.notClosed,
    hphase.forwarding, hphase.reading⟩
  · intro v
    rcases hnodes v with ⟨node, hnode, rfl | rfl⟩ <;> simp [hnode, h.mustForward]
  · intro v
    rcases hnodes v with ⟨node, hnode, rfl | rfl⟩ <;> simp [hnode, h.servesReads]
  · intro v
    rcases hnodes v with ⟨node, hnode, rfl | rfl⟩ <;> simp [hnode, h.nextIp]
  · intro v
    rcases hnodes v with ⟨node, hnode, rfl | rfl⟩ <;> simp [hnode, h.nextPort]

/-- The handler steps that change only a phase, as they are in a chain without failures. -/
inductive CalmMoves (net : Network) (nodes : Nat → MetadataNode) (s : Chain) (c : Conn) :
    Phase → Prop where
  | badArgs : c.phase = .received → request c.command = none →
      CalmMoves net nodes s c (.replied (ascii "ERROR_ARGS"))
  | redirect (filename : Bytes) : c.phase = .received →
      request c.command = some (.get filename) → c.node + 1 ≠ net.size →
      CalmMoves net nodes s c (.replied (ascii "REDIRECT_TO_TAIL"))
  | startRead (filename : Bytes) : c.phase = .received →
      request c.command = some (.get filename) → c.node + 1 = net.size →
      CalmMoves net nodes s c (.reading filename)
  | ignore : c.phase = .received → request c.command = none →
      CalmMoves net nodes s c .silent
  | sendOn : c.phase = .stored → c.node + 1 < net.size → CalmMoves net nodes s c .forwarding
  | ack : c.phase = .stored → c.node + 1 = net.size →
      CalmMoves net nodes s c (.replied (ascii "ACK"))
  | relay (child : Nat) (cc : Conn) (reply : Bytes) : c.phase = .waiting child →
      s.conns child = some cc → cc.phase = .replied reply →
      CalmMoves net nodes s c (.replied (forwardReply reply))
  | read (filename : Bytes) : c.phase = .reading filename →
      CalmMoves net nodes s c
        (.replied (MetadataNode.lookupMessage (storedAt nodes s.log c.node filename)))

/-- The steps of a chain without failures. -/
inductive CalmStep (net : Network) (nodes : Nat → MetadataNode) (s : Chain) :
    Label → Chain → Prop where
  | connect (v : Nat) (command : Bytes) : v < net.size → IsRequest command →
      CalmStep net nodes s (.connect v command)
        (s.addConn
          { node := v
            command := command
            parent := none
            origin := s.opened
            phase := .received
            lost := false })
  | move (id : Nat) (c : Conn) (phase : Phase) : s.conns id = some c →
      CalmMoves net nodes s c phase → CalmStep net nodes s (.serve id) (s.setPhase id c phase)
  | store (id : Nat) (c : Conn) (record : FileMetadata) : s.conns id = some c →
      c.phase = .received → request c.command = some (.put record) →
      CalmStep net nodes s (.serve id) (s.storeRecord id c record)
  | forward (id : Nat) (c : Conn) : s.conns id = some c → c.phase = .forwarding →
      c.node + 1 < net.size →
      CalmStep net nodes s (.serve id)
        ((s.setPhase id c (.waiting s.opened)).addConn (forwardConn id c (c.node + 1)))
  | take (id : Nat) (c : Conn) (reply : Bytes) : s.conns id = some c → c.phase = .replied reply →
      c.parent = none → CalmStep net nodes s (.take id) (s.setPhase id c .taken)

/-- A forward goes to the node behind. -/
theorem Wires.nextUp_eq (h : Wires net nodes s) (hwired : Wired net nodes) {v w : Nat}
    (hv : v + 1 < net.size) (hw : s.nextUp net v = some w) : w = v + 1 := by
  have hresolve := (nextUp_eq_some hw).1
  rw [h.nextIp, h.nextPort, (hwired.inner v hv).2.2] at hresolve
  exact (Option.some.inj hresolve).symm

theorem Moves.calm (hwired : Wired net nodes) (hbasic : Basic net nodes s)
    (h : Wires net nodes s) {id : Nat} {c : Conn} (hc : s.conns id = some c) {phase : Phase}
    (hmove : Moves net s c phase) : CalmMoves net nodes s c phase := by
  have hsize := (hbasic.opened id c hc).2
  have hrequest := (h.requests id c hc).dispatch (s.nodes c.node)
  -- A node forwards, or serves reads, according to its position.
  have hlast : (s.nodes c.node).mustForward = false ∨ (s.nodes c.node).servesReads = true →
      c.node + 1 = net.size := by
    intro hor
    by_contra hne
    have hinner := hwired.inner c.node (by omega)
    rcases hor with hforward | hserves
    · rw [h.mustForward, hinner.1] at hforward
      cases hforward
    · rw [h.servesReads, hinner.2.1] at hserves
      cases hserves
  have hinner : (s.nodes c.node).mustForward = true ∨ (s.nodes c.node).servesReads = false →
      c.node + 1 ≠ net.size := by
    intro hor hlast
    have htail := hwired.last c.node hlast
    rcases hor with hforward | hserves
    · rw [h.mustForward, htail.1] at hforward
      cases hforward
    · rw [h.servesReads, htail.2] at hserves
      cases hserves
  -- A command that is neither a well-formed `PUT` nor a `GET` is no request.
  have hnone : ∀ {action : MetadataNode.Action}, (s.nodes c.node).dispatch c.command = action →
      (action = .put → MetadataNode.parsePut c.command = none) → (∀ f, action ≠ .get f) →
      request c.command = none := by
    intro action hdispatch hput hget
    cases hop : request c.command with
    | none => rfl
    | some op =>
        cases op with
        | put r =>
            have hr := (request_eq_put (s.nodes c.node)).1 hop
            have hparse := hput (hdispatch.symm.trans hr.1)
            cases hparse.symm.trans hr.2
        | get f => exact absurd (hdispatch.symm.trans ((request_eq_get _).1 hop)) (hget f)
  cases hmove with
  | close _ hdispatch =>
      rw [hdispatch] at hrequest
      simp at hrequest
  | badArgs hphase hdispatch hparse =>
      exact .badArgs hphase (hnone hdispatch (fun _ => hparse) (by simp))
  | redirect f hphase hdispatch hserves =>
      exact .redirect f hphase ((request_eq_get _).2 hdispatch) (hinner (Or.inr hserves))
  | startRead f hphase hdispatch hserves =>
      exact .startRead f hphase ((request_eq_get _).2 hdispatch) (hlast (Or.inr hserves))
  | ignore hphase hdispatch => exact .ignore hphase (hnone hdispatch (by simp) (by simp))
  | sendOn hphase hforward =>
      have hne := hinner (Or.inl hforward)
      exact .sendOn hphase (by omega)
  | ack hphase hforward => exact .ack hphase (hlast (Or.inl hforward))
  | noNext hphase hnext =>
      -- The next node is there and is up.
      have hin := h.forwarding id c hc hphase
      simp [nextUp, h.nextIp, h.nextPort, (hwired.inner c.node hin).2.2, hin, h.up] at hnext
  | relay child cc reply hphase hcc hreply =>
      have hkept := h.kept child cc hcc
      have hopen := h.notClosed child cc hcc
      refine .relay child cc reply hphase hcc ?_
      simp only [arrived, hkept, Bool.false_eq_true, if_false] at hreply
      cases hchild : cc.phase with
      | replied reply' => simpa [hchild] using hreply
      | closed => exact absurd hchild hopen
      | _ => simp [hchild] at hreply
  | read f hphase => exact hbasic.store c.node f ▸ .read f hphase

theorem Step.calm (hwired : Wired net nodes) (hbasic : Basic net nodes s)
    (h : Wires net nodes s) (hfree : FailureFree s l) (hstep : Step net s l s') :
    CalmStep net nodes s l s' := by
  cases hstep with
  | connect v command hv _ _ => exact .connect v command hv hfree
  | move id c phase hc _ hmove => exact .move id c phase hc (hmove.calm hwired hbasic h hc)
  | store id c record hc _ hphase hdispatch hparse =>
      exact .store id c record hc hphase ((request_eq_put _).2 ⟨hdispatch, hparse⟩)
  | respond id c node reply hc _ hphase hdispatch =>
      have hrequest := (h.requests id c hc).dispatch (s.nodes c.node)
      simp [hdispatch] at hrequest
  | forward id c w hc _ hphase hnext =>
      have hin := h.forwarding id c hc hphase
      have hw := h.nextUp_eq hwired hin hnext
      subst hw
      exact .forward id c hc hphase hin
  | take id c reply hc hphase hparent _ => exact .take id c reply hc hphase hparent
  | refuse => cases hfree
  | lose => cases hfree
  | crash => cases hfree
  | pingFails => cases hfree
  | recover => cases hfree
  | notify => cases hfree

theorem Wires.step (h : Wires net nodes s) (hstep : CalmStep net nodes s l s') :
    Wires net nodes s' := by
  cases hstep with
  | connect v command _ hrequest => exact h.addConn rfl rfl hrequest
  | move id c phase hc hmove =>
      cases hmove with
      | sendOn _ hin => exact h.setPhase hc (by simp) (fun _ => hin) (by simp)
      | startRead _ _ _ hlast => exact h.setPhase hc (by simp) (by simp) fun _ _ => hlast
      | _ => exact h.setPhase hc (by simp) (by simp) (by simp)
  | store id c record hc _ _ => exact h.storeRecord hc record
  | forward id c hc _ _ =>
      have hwaiting : Wires net nodes (s.setPhase id c (.waiting s.opened)) :=
        h.setPhase hc (by simp) (by simp) (by simp)
      exact hwaiting.addConn rfl rfl (h.requests id c hc)
  | take id c reply hc _ _ => exact h.setPhase hc (by simp) (by simp) (by simp)

/-- What the steps of a chain without failures preserve holds after every run of it. -/
theorem calm_invariant (hwired : Wired net nodes) {P : Chain → Label → Prop}
    (hfree : ∀ s l, P s l → FailureFree s l) {I : List (Chain × Label) → Chain → Prop}
    (hinit : I [] (launch nodes))
    (hstep : ∀ tr s l s', Basic net nodes s → Wires net nodes s → I tr s → P s l →
      Step net s l s' → CalmStep net nodes s l s' → I (tr ++ [(s, l)]) s')
    (h : Run (Chain.step net) P (launch nodes) tr s) : Wires net nodes s ∧ I tr s := by
  induction h with
  | start => exact ⟨wires_launch, hinit⟩
  | step hrun hP hs ih =>
      have hbasic := Basic.run hrun
      have hcalm := (step_cases hs).calm hwired hbasic ih.1 (hfree _ _ hP)
      exact ⟨ih.1.step hcalm, hstep _ _ _ _ hbasic ih.1 ih.2 hP (step_cases hs) hcalm⟩

/-! ## The way of a request -/

/-- What a handler may be at for a command. -/
def Fitting (command : Bytes) (phase : Phase) : Prop :=
  match request command with
  | some (.put _) => phase = .received ∨ phase.Active ∨ (∃ reply, phase = .replied reply) ∨
      phase = .taken
  | some (.get f) => phase = .received ∨ phase = .reading f ∨ (∃ reply, phase = .replied reply) ∨
      phase = .taken
  | none => phase = .received ∨ phase = .silent ∨ (∃ reply, phase = .replied reply) ∨
      phase = .taken

/-- The connections of one request stand at successive nodes, one at each, and a handler that
waits has its connection. -/
structure Flow (s : Chain) : Prop where
  next : ∀ id c p cp, s.conns id = some c → c.parent = some p → s.conns p = some cp →
    c.node = cp.node + 1
  below : ∀ id c cr, s.conns id = some c → s.conns c.origin = some cr → cr.node ≤ c.node
  waiting : ∀ id c k, s.conns id = some c → c.phase = .waiting k →
    ∃ ck, s.conns k = some ck ∧ ck.parent = some id
  unique : ∀ i j c d, s.conns i = some c → s.conns j = some d → c.origin = d.origin →
    c.node = d.node → i = j
  fitting : ∀ id c, s.conns id = some c → Fitting c.command c.phase

theorem flow_launch : Flow (launch nodes) where
  next := by simp [launch]
  below := by simp [launch]
  waiting := by simp [launch]
  unique := by simp [launch]
  fitting := by simp [launch]

theorem CalmMoves.fitting (hbasic : Basic net nodes s) {id : Nat} {c : Conn}
    (hc : s.conns id = some c) {phase : Phase} (hmove : CalmMoves net nodes s c phase) :
    Fitting c.command phase := by
  have hreplied : ∀ reply, Fitting c.command (.replied reply) := by
    intro reply
    unfold Fitting
    split <;> exact Or.inr (Or.inr (Or.inl ⟨reply, rfl⟩))
  cases hmove with
  | startRead f hphase hop _ => simp [Fitting, hop]
  | ignore hphase hop => simp [Fitting, hop]
  | sendOn hphase hin =>
      rcases hbasic.active id c hc (by simp [hphase, Phase.Active]) with ⟨r, hr⟩
      simp [Fitting, hr, Phase.Active]
  | _ => exact hreplied _

/-- A handler that fits its command goes on fitting it. -/
theorem Evolves.fitting (hwired : Wired net nodes) (hbasic : Basic net nodes s)
    (hwires : Wires net nodes s) {id : Nat} {c : Conn} (hc : s.conns id = some c)
    (hfit : Fitting c.command c.phase) {phase : Phase} (h : Evolves net s s' c phase) :
    Fitting c.command phase := by
  cases h with
  | same => exact hfit
  | move _ hmove => exact (hmove.calm hwired hbasic hwires hc).fitting hbasic hc
  | store r _ hr => simp [Fitting, hr, Phase.Active]
  | respond reply _ hdispatch =>
      have hrequest := (hwires.requests id c hc).dispatch (s.nodes c.node)
      simp [hdispatch] at hrequest
  | forward k hphase =>
      rcases hbasic.active id c hc (by simp [hphase, Phase.Active]) with ⟨r, hr⟩
      simp [Fitting, hr, Phase.Active]
  | refuse _ =>
      unfold Fitting
      split <;> exact Or.inr (Or.inr (Or.inl ⟨_, rfl⟩))
  | take reply _ =>
      unfold Fitting
      split <;> exact Or.inr (Or.inr (Or.inr rfl))

/-- The new connection of a handler that forwards is the only one of its request at its node: the
handler that had opened another one would not be at `forwarding` any more. -/
theorem Flow.unreached (h : Flow s) (hbasic : Basic net nodes s) {id : Nat} {c : Conn}
    (hc : s.conns id = some c) (hphase : c.phase = .forwarding) {k : Nat} {d : Conn}
    (hd : s.conns k = some d) (horigin : d.origin = c.origin) : d.node ≠ c.node + 1 := by
  intro hnode
  cases hparent : d.parent with
  | none =>
      -- The client's own connection is at or before every node of the request.
      have hk := hbasic.own k d hd hparent
      have hroot : s.conns c.origin = some d := by rw [← horigin, hk]; exact hd
      have hbelow := h.below id c d hc hroot
      omega
  | some p =>
      rcases hbasic.forwarded k d p hd hparent with ⟨dp, hdp, _, horig, hsent⟩
      have hnext := h.next k d p dp hd hparent hdp
      have heq : p = id := h.unique p id dp c hdp hc (horig.trans horigin) (by omega)
      subst heq
      cases hc.symm.trans hdp
      simp [hphase, Phase.Sent] at hsent

/-- A new connection is the only one of its request at its node. -/
theorem Flow.opens (h : Flow s) (hwired : Wired net nodes) (hbasic : Basic net nodes s)
    (hwires : Wires net nodes s) {d : Conn} (hopens : Opens net s l d) {k : Nat} {e : Conn}
    (he : s.conns k = some e) (horigin : e.origin = d.origin) : e.node ≠ d.node := by
  rcases hbasic.root k e he with ⟨er, her, _⟩
  have hold : e.origin ≠ s.opened := (hbasic.opened _ er her).1.ne
  cases hopens with
  | client v command _ => exact absurd horigin hold
  | notice v node message w _ _ => exact absurd horigin hold
  | forward id c w hc hphase hw =>
      have hnode : w = c.node + 1 := hwires.nextUp_eq hwired (hwires.forwarding id c hc hphase) hw
      subst hnode
      exact h.unreached hbasic hc hphase he horigin

theorem Flow.step (h : Flow s) (hwired : Wired net nodes) (hbasic : Basic net nodes s)
    (hwires : Wires net nodes s) (hstep : Step net s l s') : Flow s' where
  next := by
    intro k d p dp hd hp hdp
    rcases hstep.conn_cases hd with hnew | ⟨d', hd', hkept⟩
    · cases hnew.opens with
      | forward q c w hc hphase hw =>
          cases hp
          rcases hstep.persist hbasic p c hc with ⟨_, _, hc'⟩
          cases hc'.symm.trans hdp
          exact hwires.nextUp_eq hwired (hwires.forwarding p c hc hphase) hw
      | client v command _ => cases hp
      | notice v node message w _ _ => cases hp
    · rw [hkept.parent] at hp
      rw [hkept.node]
      rcases hbasic.forwarded k d' p hd' hp with ⟨cp, hcp, _⟩
      rcases hstep.persist hbasic p cp hcp with ⟨_, _, hcp'⟩
      cases hcp'.symm.trans hdp
      exact h.next k d' p cp hd' hp hcp
  below := by
    intro k d dr hd hdr
    rcases hstep.conn_cases hd with hnew | ⟨d', hd', hkept⟩
    · rcases hnew with ⟨rfl, _, _, hopens, _⟩
      cases hopens with
      | forward q c w hc hphase hw =>
          rcases hbasic.root q c hc with ⟨cr, hcr, _⟩
          rcases hstep.persist hbasic _ cr hcr with ⟨_, _, hcr'⟩
          cases hcr'.symm.trans hdr
          have hnode := hwires.nextUp_eq hwired (hwires.forwarding q c hc hphase) hw
          calc cr.node
            _ ≤ c.node := h.below q c cr hc hcr
            _ ≤ w := hnode ▸ Nat.le_succ _
      | client v command _ =>
          cases hd.symm.trans hdr
          exact le_refl _
      | notice v node message w _ _ =>
          cases hd.symm.trans hdr
          exact le_refl _
    · rw [hkept.origin] at hdr
      rw [hkept.node]
      rcases hbasic.root k d' hd' with ⟨cr, hcr, _⟩
      rcases hstep.persist hbasic _ cr hcr with ⟨_, _, hcr'⟩
      cases hcr'.symm.trans hdr
      exact h.below k d' cr hd' hcr
  waiting := hstep.waiting hbasic h.waiting
  unique := by
    intro i j d e hd he horigin hnode
    rcases hstep.conn_cases hd with hnew | ⟨d', hd', hkept⟩
    · -- Two connections of one request at one node: both new, both old, or impossible.
      rcases hstep.conn_cases he with hnew' | ⟨e', he', hkept'⟩
      · exact hnew.id.trans hnew'.id.symm
      · rw [hkept'.origin] at horigin
        rw [hkept'.node] at hnode
        exact absurd hnode.symm (h.opens hwired hbasic hwires hnew.opens he' horigin.symm)
    · rw [hkept.origin] at horigin
      rw [hkept.node] at hnode
      rcases hstep.conn_cases he with hnew' | ⟨e', he', hkept'⟩
      · exact absurd hnode (h.opens hwired hbasic hwires hnew'.opens hd' horigin)
      · rw [hkept'.origin] at horigin
        rw [hkept'.node] at hnode
        exact h.unique i j d' e' hd' he' horigin hnode
  fitting := by
    intro k d hd
    rcases hstep.conn_cases hd with hnew | ⟨d', hd', hkept⟩
    · have hreceived : d.phase = .received := by cases hnew.opens <;> rfl
      rw [hreceived]
      unfold Fitting
      split <;> exact Or.inl rfl
    · rw [hkept.command]
      exact hkept.evolves.fitting hwired hbasic hwires hd' (h.fitting k d' hd')

/-! ## What a reply says -/

/-- A well-formed `PUT` is answered with `ACK` only, once it is stored at every node from its own
to the last; and it is stored at a node at most once. -/
structure Answers (net : Network) (s : Chain) : Prop where
  acked : ∀ id c r reply, s.conns id = some c → request c.command = some (.put r) →
    c.phase = .replied reply → reply = ascii "ACK"
  carried : ∀ id c r, s.conns id = some c → request c.command = some (.put r) →
    ((∃ reply, c.phase = .replied reply) ∨ c.phase = .taken) →
    ∀ w, c.node ≤ w → w < net.size → ⟨w, c.origin, r⟩ ∈ s.log
  once : (s.log.map fun e => (e.node, e.origin)).Nodup

theorem answers_launch : Answers net (launch nodes) where
  acked := by simp [launch]
  carried := by simp [launch]
  once := by simp [launch]

theorem Answers.setPhase (h : Answers net s) {id : Nat} {c : Conn} (hc : s.conns id = some c)
    {phase : Phase}
    (hreply : ∀ r, request c.command = some (.put r) →
      ((∃ reply, phase = .replied reply) ∨ phase = .taken) →
      (∀ reply, phase = .replied reply → reply = ascii "ACK") ∧
        ∀ w, c.node ≤ w → w < net.size → ⟨w, c.origin, r⟩ ∈ s.log) :
    Answers net (s.setPhase id c phase) where
  acked := by
    intro k d r reply hd hr hphase
    rcases setPhase_conn hd with ⟨rfl, rfl⟩ | ⟨_, hd⟩
    · exact (hreply r hr (Or.inl ⟨reply, hphase⟩)).1 reply hphase
    · exact h.acked k d r reply hd hr hphase
  carried := by
    intro k d r hd hr hphase
    rcases setPhase_conn hd with ⟨rfl, rfl⟩ | ⟨_, hd⟩
    · exact (hreply r hr hphase).2
    · exact h.carried k d r hd hr hphase
  once := h.once

theorem Answers.addConn (h : Answers net s) {c : Conn} (hphase : c.phase = .received) :
    Answers net (s.addConn c) where
  acked := by
    intro k d r reply hd hr hreply
    rcases addConn_conn hd with ⟨rfl, rfl⟩ | ⟨_, hd⟩
    · cases hphase.symm.trans hreply
    · exact h.acked k d r reply hd hr hreply
  carried := by
    intro k d r hd hr hreply
    rcases addConn_conn hd with ⟨rfl, rfl⟩ | ⟨_, hd⟩
    · simp [hphase] at hreply
    · exact h.carried k d r hd hr hreply
  once := h.once

theorem Answers.storeRecord (h : Answers net s) (hbasic : Basic net nodes s) (hflow : Flow s)
    {id : Nat} {c : Conn} (hc : s.conns id = some c) (hphase : c.phase = .received)
    (r : FileMetadata) : Answers net (s.storeRecord id c r) where
  acked := by
    intro k d r' reply hd hr hreply
    rcases setPhase_conn hd with ⟨rfl, rfl⟩ | ⟨_, hd⟩
    · cases hreply
    · exact h.acked k d r' reply hd hr hreply
  carried := by
    intro k d r' hd hr hreply w hw hsize
    rcases setPhase_conn hd with ⟨rfl, rfl⟩ | ⟨_, hd⟩
    · simp at hreply
    · exact List.mem_append_left _ (h.carried k d r' hd hr hreply w hw hsize)
  once := by
    have hnew : (c.node, c.origin) ∉ s.log.map fun e => (e.node, e.origin) := by
      intro hmem
      rcases List.mem_map.1 hmem with ⟨e, he, heq⟩
      simp only [Prod.mk.injEq] at heq
      rcases hbasic.source e he with ⟨k, d, hd, hnode, horigin, hne, _⟩
      -- The handler that stored it would be this one.
      have hk : k = id :=
        hflow.unique k id d c hd hc (horigin.trans heq.2) (hnode.trans heq.1)
      subst hk
      cases hc.symm.trans hd
      exact hne hphase
    have hlog : (s.storeRecord id c r).log = s.log ++ [⟨c.node, c.origin, r⟩] := rfl
    rw [hlog, List.map_append]
    exact h.once.append (by simp) (by simpa using hnew)

theorem CalmMoves.answers (hbasic : Basic net nodes s) (hflow : Flow s) (h : Answers net s)
    {id : Nat} {c : Conn} (hc : s.conns id = some c) {phase : Phase}
    (hmove : CalmMoves net nodes s c phase) (r : FileMetadata)
    (hr : request c.command = some (.put r))
    (hdone : (∃ reply, phase = .replied reply) ∨ phase = .taken) :
    (∀ reply, phase = .replied reply → reply = ascii "ACK") ∧
      ∀ w, c.node ≤ w → w < net.size → ⟨w, c.origin, r⟩ ∈ s.log := by
  have hown : c.phase ≠ .received → ⟨c.node, c.origin, r⟩ ∈ s.log :=
    hbasic.logged id c r hc hr
  cases hmove with
  | badArgs _ hop => cases hop.symm.trans hr
  | redirect f _ hop _ => cases hop.symm.trans hr
  | startRead f _ hop _ => cases hop.symm.trans hr
  | ignore _ hop => cases hop.symm.trans hr
  | sendOn hphase _ => simp at hdone
  | ack hphase hlast =>
      -- The last node has no node behind it.
      refine ⟨by simp, fun w hw hsize => ?_⟩
      have : w = c.node := by omega
      exact this ▸ hown (by simp [hphase])
  | relay child cc reply hphase hcc hreply =>
      -- The forward carried it on from the next node.
      rcases hflow.waiting id c child hc hphase with ⟨cc', hcc', hparent⟩
      cases hcc.symm.trans hcc'
      rcases hbasic.forwarded child cc id hcc hparent with ⟨c', hc', hcommand, horigin, _⟩
      cases hc.symm.trans hc'
      have hr' : request cc.command = some (.put r) := hcommand ▸ hr
      have hack := h.acked child cc r reply hcc hr' hreply
      have hnext := hflow.next child cc id c hcc hparent hc
      refine ⟨by simp [forwardReply, hack], fun w hw hsize => ?_⟩
      by_cases heq : w = c.node
      · exact heq ▸ hown (by simp [hphase])
      · rw [horigin]
        exact h.carried child cc r hcc hr' (Or.inl ⟨reply, hreply⟩) w (by omega) hsize
  | read f hphase =>
      have hfit := hflow.fitting id c hc
      simp [Fitting, hr, hphase, Phase.Active] at hfit

theorem Answers.step (h : Answers net s) (hbasic : Basic net nodes s) (hflow : Flow s)
    (hstep : CalmStep net nodes s l s') : Answers net s' := by
  cases hstep with
  | connect v command _ _ => exact h.addConn rfl
  | move id c phase hc hmove => exact h.setPhase hc (hmove.answers hbasic hflow h hc)
  | store id c record hc hphase _ => exact h.storeRecord hbasic hflow hc hphase record
  | forward id c hc _ _ =>
      have hwaiting : Answers net (s.setPhase id c (.waiting s.opened)) :=
        h.setPhase hc (by simp)
      exact hwaiting.addConn rfl
  | take id c reply hc hphase _ =>
      exact h.setPhase hc fun r hr _ =>
        ⟨by simp, h.carried id c r hc hr (Or.inl ⟨reply, hphase⟩)⟩

/-- All of this holds after every run without failures. -/
structure Calm (net : Network) (nodes : Nat → MetadataNode) (s : Chain) : Prop where
  basic : Basic net nodes s
  wires : Wires net nodes s
  flow : Flow s
  answers : Answers net s

theorem Calm.run (hwired : Wired net nodes) {P : Chain → Label → Prop}
    (hfree : ∀ s l, P s l → FailureFree s l)
    (h : Run (Chain.step net) P (launch nodes) tr s) : Calm net nodes s := by
  have hall := calm_invariant hwired hfree (I := fun _ s => Flow s ∧ Answers net s)
    ⟨flow_launch, answers_launch⟩
    (fun _ _ _ _ hbasic hwires hI _ hstep hcalm =>
      ⟨hI.1.step hwired hbasic hwires hstep, hI.2.step hbasic hI.1 hcalm⟩) h
  exact ⟨Basic.run h, hall.1, hall.2.1, hall.2.2⟩

end

end Chain
end Metadata
end Dfs

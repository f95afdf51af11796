import Dfs.Metadata.Acknowledged

/-!
# What the reply to a `PUT` says

A handler stores the record before it forwards the command, and a forward that fails undoes
nothing.  So while connections are refused and break and nodes crash, the nodes that have stored a
`PUT` are an initial part of the chain: all of it if the first node acknowledges, none of it if the
first node finds the arguments bad, and otherwise any part but the empty one.
-/

namespace Dfs
namespace Metadata

open Bytes TextScan MetadataNode

namespace Chain

/-! ## One `PUT` -/

/-- A request that stores nothing. -/
def StoresNothing (command : Bytes) : Prop :=
  IsRequest command ∧ ∀ r, request command ≠ some (.put r)

instance (command : Bytes) : Decidable (StoresNothing command) :=
  decidable_of_iff
    (IsRequest command ∧
      (match request command with | some (.put _) => false | _ => true) = true) (by
    unfold StoresNothing
    cases request command with
    | none => simp
    | some op => cases op <;> simp)

/-- The first client sends `command` to the first node, and the other ones send requests that store
nothing.  Anything may fail at any time, and no health check recovers. -/
def Alone (command : Bytes) (s : Chain) : Label → Prop
  | .connect v other =>
      if s.opened = 0 then v = 0 ∧ other = command
      else StoresNothing other
  | .recover _ => False
  | _ => True

instance (command : Bytes) (s : Chain) (l : Label) : Decidable (Alone command s l) :=
  match l with
  | .connect v other =>
      inferInstanceAs (Decidable (if s.opened = 0 then v = 0 ∧ other = command
        else StoresNothing other))
  | .recover _ => inferInstanceAs (Decidable False)
  | .serve _ => inferInstanceAs (Decidable True)
  | .take _ => inferInstanceAs (Decidable True)
  | .refuse _ => inferInstanceAs (Decidable True)
  | .lose _ => inferInstanceAs (Decidable True)
  | .crash _ => inferInstanceAs (Decidable True)
  | .pingFails _ => inferInstanceAs (Decidable True)

/-- The first `k` nodes hold `record` under its name, and apart from that the stores are those of
`nodes`. -/
def StoredBy (nodes : Nat → MetadataNode) (record : FileMetadata) (k : Nat) (s : Chain) : Prop :=
  ∀ v, (s.nodes v).metadataStore =
    if v < k then Function.update (nodes v).metadataStore record.filename (some record)
    else (nodes v).metadataStore

/-- What the reply to a `PUT` says about the stores. -/
structure Outcome (net : Network) (nodes : Nat → MetadataNode) (command reply : Bytes)
    (s : Chain) : Prop where
  replies : reply = ascii "ACK" ∨ reply = ascii "ERROR_ARGS" ∨ reply = ascii "ERROR_FORWARD"
  acked : reply = ascii "ACK" →
    ∃ record, parsePut command = some record ∧ StoredBy nodes record net.size s
  badArgs : reply = ascii "ERROR_ARGS" → ∀ v, (s.nodes v).metadataStore = (nodes v).metadataStore
  /-- and no node ever stores anything for the request, whatever comes next -/
  never : reply = ascii "ERROR_ARGS" → ∀ tr' s', Run (Chain.step net) (fun _ _ => True) s tr' s' →
    ∀ e ∈ s'.log, e.origin ≠ 0
  failed : reply = ascii "ERROR_FORWARD" →
    ∃ record k, parsePut command = some record ∧ 0 < k ∧ k ≤ net.size ∧ StoredBy nodes record k s

/-! ## The way of the command -/

/-- Where a handler of the `PUT` can be. -/
def PutPhase (command : Bytes) : Phase → Prop
  | .replied reply =>
      match parsePut command with
      | none => reply = ascii "ERROR_ARGS"
      | some _ => reply = ascii "ACK" ∨ reply = ascii "ERROR_FORWARD"
  | .reading _ => False
  | .silent => False
  | .closed => False
  | _ => True

structure Travels (net : Network) (nodes : Nat → MetadataNode) (command : Bytes) (s : Chain) :
    Prop where
  links : ∀ v, SameLinks (nodes v) (s.nodes v)
  requests : ∀ id c, s.conns id = some c → IsRequest c.command
  root : ∀ c, s.conns 0 = some c → c.origin = 0 ∧ c.parent = none
  first : ∀ id c, s.conns id = some c → c.origin = 0 →
    c.command = command ∧ (c.parent = none → c.node = 0)
  others : ∀ id c, s.conns id = some c → c.origin ≠ 0 → ∀ r, request c.command ≠ some (.put r)
  inner : ∀ id c, s.conns id = some c → c.phase = .forwarding → c.node + 1 < net.size
  next : ∀ id c p cp, s.conns id = some c → c.parent = some p → s.conns p = some cp →
    c.node = cp.node + 1
  phase : ∀ id c, s.conns id = some c → c.origin = 0 → PutPhase command c.phase

section

variable {net : Network} {nodes : Nat → MetadataNode} {command reply : Bytes} {s s' : Chain}
  {l : Label} {tr : List (Chain × Label)} {id v : Nat} {c : Conn}

theorem travels_launch : Travels net nodes command (launch nodes) where
  links := fun v => SameLinks.refl (nodes v)
  requests := by simp [launch]
  root := by simp [launch]
  first := by simp [launch]
  others := by simp [launch]
  inner := by simp [launch]
  next := by simp [launch]
  phase := by simp [launch]

theorem dispatch_of_put (hput : (readWord command).map Prod.fst = some (ascii "PUT"))
    (node : MetadataNode) : node.dispatch command = .put := by
  rcases Option.map_eq_some_iff.1 hput with ⟨⟨op, rest⟩, hword, hop⟩
  exact dispatch_eq_put.2 ⟨rest, hword.trans (congrArg (fun op => some (op, rest)) hop)⟩

/-- A node that forwards is not the last. -/
theorem Travels.inner_of_mustForward (h : Travels net nodes command s) (hwired : Wired net nodes)
    (hv : v < net.size) (hmust : (s.nodes v).mustForward = true) : v + 1 < net.size := by
  rcases Nat.lt_or_eq_of_le (Nat.succ_le_of_lt hv) with hinner | hlast
  · exact hinner
  · rw [(h.links v).mustForward, (hwired.last v hlast).1] at hmust
    cases hmust

/-- A forward goes to the node behind. -/
theorem Travels.nextUp_eq (h : Travels net nodes command s) (hwired : Wired net nodes)
    (hv : v + 1 < net.size) {w : Nat} (hw : s.nextUp net v = some w) : w = v + 1 := by
  have hresolve := (nextUp_eq_some hw).1
  rw [(h.links v).nextNodeIp, (h.links v).nextNodePort, (hwired.inner v hv).2.2] at hresolve
  exact (Option.some.inj hresolve).symm

/-- A handler of the `PUT` goes on. -/
theorem PutPhase.evolves {phase : Phase} (h : PutPhase command c.phase)
    (hput : ∀ node : MetadataNode, node.dispatch c.command = .put) (hcommand : c.command = command)
    (hactive : c.phase.Active → ∃ r, request c.command = some (.put r))
    (hevolves : Evolves net s s' c phase) : PutPhase command phase := by
  -- What it replies once it has stored the record.
  have hparsed : ∀ reply, c.phase.Active →
      (reply = ascii "ACK" ∨ reply = ascii "ERROR_FORWARD") → PutPhase command (.replied reply) := by
    intro reply hphase hreply
    rcases hactive hphase with ⟨r, hr⟩
    have hparse := ((request_eq_put (s.nodes c.node)).1 hr).2
    rw [hcommand] at hparse
    simpa only [PutPhase, hparse] using hreply
  cases hevolves with
  | same => exact h
  | move _ hmove =>
      cases hmove with
      | close _ hdispatch => cases (hput _).symm.trans hdispatch
      | badArgs _ _ hparse =>
          rw [hcommand] at hparse
          simp only [PutPhase, hparse]
      | redirect _ _ hdispatch _ => cases (hput _).symm.trans hdispatch
      | startRead _ _ hdispatch _ => cases (hput _).symm.trans hdispatch
      | ignore _ hdispatch => cases (hput _).symm.trans hdispatch
      | sendOn _ _ => trivial
      | ack hphase _ => exact hparsed _ (by simp [hphase, Phase.Active]) (Or.inl rfl)
      | noNext hphase _ => exact hparsed _ (by simp [hphase, Phase.Active]) (Or.inr rfl)
      | relay child cc reply hphase _ _ =>
          refine hparsed _ (by simp [hphase, Phase.Active]) ?_
          unfold forwardReply
          split
          · exact Or.inl rfl
          · exact Or.inr rfl
      | read filename hphase =>
          rw [hphase] at h
          exact h.elim
  | store record _ _ => trivial
  | respond reply _ hdispatch => cases (hput _).symm.trans hdispatch
  | forward k _ => trivial
  | refuse hphase => exact hparsed _ (by simp [hphase, Phase.Active]) (Or.inr rfl)
  | take reply _ => trivial

theorem Travels.step (h : Travels net nodes command s) (hwired : Wired net nodes)
    (hput : (readWord command).map Prod.fst = some (ascii "PUT")) (hbasic : Basic net nodes s)
    (halone : Alone command s l) (hstep : Step net s l s') : Travels net nodes command s' := by
  have hdispatch := dispatch_of_put hput
  have hrequest : IsRequest command := by
    rcases Option.map_eq_some_iff.1 hput with ⟨⟨op, rest⟩, hword, hop⟩
    exact ⟨rest, Or.inl (hword.trans (congrArg (fun op => some (op, rest)) hop))⟩
  -- A new connection is one of a client or a forward.
  have hopens : ∀ d, Opens net s l d →
      (d.parent = none ∧ d.phase = .received ∧ d.origin = s.opened ∧
        (s.opened = 0 ∧ d.node = 0 ∧ d.command = command ∨
          s.opened ≠ 0 ∧ IsRequest d.command ∧ ∀ r, request d.command ≠ some (.put r))) ∨
      ∃ id c w, s.conns id = some c ∧ c.phase = .forwarding ∧ s.nextUp net c.node = some w ∧
        d = forwardConn id c w := by
    intro d hd
    cases hd with
    | client v other _ =>
        refine Or.inl ⟨rfl, rfl, rfl, ?_⟩
        by_cases hopened : s.opened = 0
        · simp only [Alone, if_pos hopened] at halone
          exact Or.inl ⟨hopened, halone⟩
        · simp only [Alone, if_neg hopened] at halone
          exact Or.inr ⟨hopened, halone⟩
    | forward id c w hc hphase hw => exact Or.inr ⟨id, c, w, hc, hphase, hw, rfl⟩
    | notice v node message w _ _ => exact halone.elim
  refine ⟨?_, ?_, ?_, ?_, ?_, ?_, ?_, ?_⟩
  · intro v
    have hkeep : SameLinks (s.nodes v) (s'.nodes v) := by
      have hrelinks := hstep.relinks v
      generalize s'.nodes v = node at hrelinks ⊢
      cases hrelinks with
      | keep _ _ hsame => exact hsame
      | respond id c node reply hc _ hrespond =>
          exact absurd hrespond (not_respond_of_isRequest (h.requests id c hc) _ _ _)
      | recover _ => exact halone.elim
    exact (h.links v).trans hkeep
  · intro k d hd
    rcases hstep.conn hd with ⟨_, hopen⟩ | ⟨d', hd', _, hcommand, _⟩
    · rcases hopens d hopen with ⟨_, _, _, ⟨_, _, hcommand⟩ | ⟨_, hother, _⟩⟩ |
        ⟨id, c, w, hc, _, _, rfl⟩
      · exact hcommand ▸ hrequest
      · exact hother
      · exact h.requests id c hc
    · exact hcommand ▸ h.requests k d' hd'
  · intro d hd
    rcases hstep.conn hd with ⟨hopened, hopen⟩ | ⟨d', hd', _, _, hparent, horigin, _⟩
    · rcases hopens d hopen with ⟨hnone, _, horigin, _⟩ | ⟨id, c, w, hc, _, _, rfl⟩
      · exact ⟨horigin.trans hopened.symm, hnone⟩
      · have hid := (hbasic.opened id c hc).1
        rw [← hopened] at hid
        cases hid
    · rw [hparent, horigin]
      exact h.root d' hd'
  · intro k d hd hzero
    rcases hstep.conn hd with ⟨_, hopen⟩ | ⟨d', hd', hnode, hcommand, hparent, horigin, _⟩
    · rcases hopens d hopen with ⟨_, _, horigin, ⟨_, hnode, hcommand⟩ | ⟨hne, _⟩⟩ |
        ⟨id, c, w, hc, _, _, rfl⟩
      · exact ⟨hcommand, fun _ => hnode⟩
      · exact absurd (horigin.symm.trans hzero) hne
      · exact ⟨(h.first id c hc hzero).1, fun hnone => by cases hnone⟩
    · have hfirst := h.first k d' hd' (horigin ▸ hzero)
      exact ⟨hcommand.trans hfirst.1, fun hnone => hnode.trans (hfirst.2 (hparent ▸ hnone))⟩
  · intro k d hd hne
    rcases hstep.conn hd with ⟨_, hopen⟩ | ⟨d', hd', _, hcommand, _, horigin, _⟩
    · rcases hopens d hopen with ⟨_, _, horigin, ⟨hzero, _⟩ | ⟨_, _, hother⟩⟩ |
        ⟨id, c, w, hc, _, _, rfl⟩
      · exact absurd (horigin.trans hzero) hne
      · exact hother
      · exact h.others id c hc hne
    · exact hcommand ▸ h.others k d' hd' (horigin ▸ hne)
  · intro k d hd hforwarding
    rcases hstep.conn hd with ⟨_, hopen⟩ | ⟨d', hd', hnode, _, _, _, hevolves⟩
    · rcases hopens d hopen with ⟨_, hphase, _⟩ | ⟨id, c, w, _, _, _, rfl⟩
      · cases hphase.symm.trans hforwarding
      · cases hforwarding
    · rw [hnode]
      rw [hforwarding] at hevolves
      generalize hphase : Phase.forwarding = phase at hevolves
      cases hevolves with
      | same => exact h.inner k d' hd' hphase.symm
      | move _ hmove =>
          subst hphase
          cases hmove with
          | sendOn _ hmust =>
              exact h.inner_of_mustForward hwired (hbasic.opened k d' hd').2 hmust
      | _ => cases hphase
  · intro k d p dp hd hp hdp
    rcases hstep.conn hd with ⟨_, hopen⟩ | ⟨d', hd', hnode, _, hparent, _⟩
    · rcases hopens d hopen with ⟨hnone, _⟩ | ⟨id, c, w, hc, hphase, hw, rfl⟩
      · cases hnone.symm.trans hp
      · cases hp
        rcases hstep.persist hbasic p c hc with ⟨_, _, hc'⟩
        cases hc'.symm.trans hdp
        exact h.nextUp_eq hwired (h.inner p c hc hphase) hw
    · rw [hparent] at hp
      rcases hbasic.forwarded k d' p hd' hp with ⟨cp, hcp, _⟩
      rcases hstep.persist hbasic p cp hcp with ⟨_, _, hcp'⟩
      cases hcp'.symm.trans hdp
      exact hnode.trans (h.next k d' p cp hd' hp hcp)
  · intro k d hd hzero
    rcases hstep.conn hd with ⟨_, hopen⟩ | ⟨d', hd', _, _, _, horigin, hevolves⟩
    · rcases hopens d hopen with ⟨_, hphase, _⟩ | ⟨id, c, w, _, _, _, rfl⟩
      · rw [hphase]
        trivial
      · trivial
    · have hold := h.first k d' hd' (horigin ▸ hzero)
      exact (h.phase k d' hd' (horigin ▸ hzero)).evolves (fun node => hold.1 ▸ hdispatch node)
        hold.1 (hbasic.active k d' hd') hevolves

theorem travels_run (hwired : Wired net nodes)
    (hput : (readWord command).map Prod.fst = some (ascii "PUT"))
    (h : Run (Chain.step net) (Alone command) (launch nodes) tr s) : Travels net nodes command s :=
  h.state_invariant travels_launch fun _ _ _ _ hrun hI halone hs =>
    hI.step hwired hput (Basic.run hrun) halone (step_cases hs)

/-- An acknowledgement comes back from the last node. -/
theorem acknowledged_alone (hwired : Wired net nodes)
    (hput : (readWord command).map Prod.fst = some (ascii "PUT"))
    (h : Run (Chain.step net) (Alone command) (launch nodes) tr s) :
    Acknowledged (fun _ => True) net.size (fun _ => True) s := by
  refine h.state_invariant
    (I := fun s => Acknowledged (fun _ => True) net.size (fun _ => True) s)
    acknowledged_launch ?_
  intro tr s l s' hrun hack halone hs
  have hbasic := Basic.run hrun
  have htravels := travels_run hwired hput hrun
  refine hack.step hbasic (step_cases hs) ?_ ?_
  · intro id c hc _ hmust _ w hvw hw _
    have hinner : c.node + 1 < net.size := by omega
    rw [(htravels.links c.node).mustForward, (hwired.inner c.node hinner).1] at hmust
    cases hmust
  · intro id c x hc hphase hx _ w hvw _ _
    rw [htravels.nextUp_eq hwired (htravels.inner id c hc hphase) hx]
    exact hvw

/-! ## The stores -/

/-- Only the `PUT` stores anything, and only its own record. -/
theorem Travels.logged_eq (h : Travels net nodes command s) (hbasic : Basic net nodes s)
    {e : Applied} (he : e ∈ s.log) :
    e.origin = 0 ∧ e.node < net.size ∧ parsePut command = some e.record := by
  rcases hbasic.source e he with ⟨id, c, hc, hnode, horigin, _, hr⟩
  have hzero : c.origin = 0 := by
    by_contra hne
    exact h.others id c hc hne _ hr
  have hparse := ((request_eq_put (nodes 0)).1 hr).2
  rw [(h.first id c hc hzero).1] at hparse
  exact ⟨horigin ▸ hzero, hnode ▸ (hbasic.opened id c hc).2, hparse⟩

/-- A node behind the first has stored the record only if the one before it has. -/
theorem Travels.logged_before (h : Travels net nodes command s) (hbasic : Basic net nodes s)
    {record : FileMetadata} (hlog : ⟨v + 1, 0, record⟩ ∈ s.log) : ⟨v, 0, record⟩ ∈ s.log := by
  rcases hbasic.source _ hlog with ⟨id, c, hc, hnode, hzero, _, hr⟩
  cases hparent : c.parent with
  | none =>
      have hfirst := (h.first id c hc hzero).2 hparent
      cases hfirst.symm.trans hnode
  | some p =>
      rcases hbasic.forwarded id c p hc hparent with ⟨cp, hcp, hcommand, horigin, hsent⟩
      have hstored := hbasic.logged p cp record hcp (hcommand ▸ hr) (by
        intro hphase
        simp [hphase, Phase.Sent] at hsent)
      have hbefore : cp.node = v :=
        Nat.succ.inj ((h.next id c p cp hc hparent hcp).symm.trans hnode)
      rwa [hbefore, horigin, hzero] at hstored

/-- The nodes that have stored the record are an initial part of the chain. -/
theorem Travels.storedBy (h : Travels net nodes command s) (hbasic : Basic net nodes s)
    {record : FileMetadata} (hparse : parsePut command = some record) :
    ∃ k ≤ net.size, (∀ v, ⟨v, 0, record⟩ ∈ s.log ↔ v < k) ∧ StoredBy nodes record k s := by
  have hfinal : ⟨net.size, 0, record⟩ ∉ s.log := fun hlog =>
    Nat.lt_irrefl _ (h.logged_eq hbasic hlog).2.1
  have hlast : ∃ k, (⟨k, 0, record⟩ : Applied) ∉ s.log := ⟨_, hfinal⟩
  have hiff : ∀ v, ⟨v, 0, record⟩ ∈ s.log ↔ v < Nat.find hlast := by
    intro v
    constructor
    · intro hlog
      by_contra hle
      -- Back from `v`, every node has stored the record.
      have hback : ∀ d w, w + d = v → ⟨w, 0, record⟩ ∈ s.log := by
        intro d
        induction d with
        | zero =>
            rintro w rfl
            exact hlog
        | succ d ih =>
            intro w hw
            exact h.logged_before hbasic (ih (w + 1) (by omega))
      exact Nat.find_spec hlast (hback (v - Nat.find hlast) _ (by omega))
    · intro hlt
      exact not_not.1 (Nat.find_min hlast hlt)
  refine ⟨Nat.find hlast, Nat.find_min' hlast hfinal, hiff, fun v => ?_⟩
  funext f
  have hentry : ∀ e ∈ s.log, e.node = v → e = ⟨v, 0, record⟩ := by
    intro e he hnode
    have heq := h.logged_eq hbasic he
    have hrecord := Option.some.inj (heq.2.2.symm.trans hparse)
    rcases e with ⟨node, origin, r⟩
    rw [Applied.mk.injEq]
    exact ⟨hnode, heq.1, hrecord⟩
  rw [hbasic.store, storedAt]
  cases hwrite : lastWrite s.log v f with
  | none =>
      by_cases hv : v < Nat.find hlast
      · have hname : f ≠ record.filename :=
          (lastWrite_eq_none.1 hwrite _ ((hiff v).2 hv) rfl).symm
        rw [if_pos hv, Function.update_of_ne hname]
      · rw [if_neg hv]
  | some e =>
      rcases lastWrite_eq_some hwrite with ⟨he, hnode, hname⟩
      obtain rfl := hentry e he hnode
      rw [if_pos ((hiff v).1 he), ← hname, Function.update_self]

end

/-! ## Two and three nodes -/

/-- The last node of three crashes before the second forwards to it. -/
def lastRefuses : List Label :=
  [.connect 0 (ascii "PUT a 1 2 3 r x"), .serve 0, .serve 0, .serve 0, .serve 1, .serve 1,
    .crash 2, .serve 1, .serve 0]

/-- The second node of two crashes before the first forwards to it. -/
def secondCrashes : List Label :=
  [.connect 0 (ascii "PUT a 1 2 3 r x"), .serve 0, .serve 0, .crash 1, .serve 0]

end Chain
end Metadata
end Dfs

import Dfs.Metadata.Acknowledged

/-!
# Extending the chain

`UPDATE_NEXT` makes the last node of a chain forward to a node started behind it.  The last node
then serves no reads any more, and the new one serves them from its own store, into which nothing
but the forwards of `PUT`s is written.  So what the old last node had not answered yet is found at
the new one, and what it had answered is not.
-/

namespace Dfs
namespace Metadata

open Bytes TextScan

/-- Nodes `0` to `t` are a chain, and node `t + 1` has just been started behind it, at an address. -/
structure Extension (net : Network) (nodes : Nat → MetadataNode) (t : Nat) (ip : Bytes)
    (port : Int) : Prop where
  size : net.size = t + 2
  inner : ∀ v < t, (nodes v).mustForward = true ∧
    net.resolve (nodes v).nextNodeIp (nodes v).nextNodePort = some (v + 1)
  last : (nodes t).servesReads = true
  added : ∃ nextIp, nodes (t + 1) = MetadataNode.launch nextIp (-1) port
  address : IsAddress ip port
  resolve : net.resolve ip port = some (t + 1)

namespace Chain

open MetadataNode

/-- Clients send requests to all nodes and `UPDATE_NEXT` to the last one.  Connections may break
and nodes crash, but no health check changes the links. -/
def Extending (t : Nat) (ip : Bytes) (port : Int) (_ : Chain) : Label → Prop
  | .connect v command =>
      IsRequest command ∨ v = t ∧ command = linkCommand (ascii "UPDATE_NEXT") ip port
  | .recover _ => False
  | _ => True

instance (t : Nat) (ip : Bytes) (port : Int) (s : Chain) (l : Label) :
    Decidable (Extending t ip port s l) :=
  match l with
  | .connect v command =>
      inferInstanceAs (Decidable (IsRequest command ∨
        v = t ∧ command = linkCommand (ascii "UPDATE_NEXT") ip port))
  | .recover _ => inferInstanceAs (Decidable False)
  | .serve _ => inferInstanceAs (Decidable True)
  | .take _ => inferInstanceAs (Decidable True)
  | .refuse _ => inferInstanceAs (Decidable True)
  | .lose _ => inferInstanceAs (Decidable True)
  | .crash _ => inferInstanceAs (Decidable True)
  | .pingFails _ => inferInstanceAs (Decidable True)

/-- Node `t` has not answered any connection of a request. -/
def Unanswered (s : Chain) (t origin : Nat) : Prop :=
  ∀ k d, s.conns k = some d → d.node = t → d.origin = origin → ¬ d.phase.Answered

/-! ## The links -/

/-- The links while the chain is being extended. -/
structure Stretch (net : Network) (t : Nat) (ip : Bytes) (port : Int) (s : Chain) : Prop where
  inner : ∀ v < t, (s.nodes v).mustForward = true ∧
    net.resolve (s.nodes v).nextNodeIp (s.nodes v).nextNodePort = some (v + 1)
  last : (s.nodes t).servesReads = true ∨
    (s.nodes t).mustForward = true ∧ (s.nodes t).nextNodeIp = ip ∧ (s.nodes t).nextNodePort = port
  added : (s.nodes (t + 1)).servesReads = true
  commands : ∀ id c, s.conns id = some c → IsRequest c.command ∨
    c.node = t ∧ c.command = linkCommand (ascii "UPDATE_NEXT") ip port

section

variable {net : Network} {nodes : Nat → MetadataNode} {t : Nat} {ip : Bytes} {port : Int}
  {s s' s₁ : Chain} {l : Label} {tr : List (Chain × Label)}

/-- A node does not both serve reads and forward. -/
theorem servesReads_of_mustForward {node : MetadataNode} (h : node.mustForward = true) :
    node.servesReads = false := by
  cases hrole : node.role <;> simp [mustForward, servesReads, hrole] at h ⊢

theorem mustForward_updateNext (node : MetadataNode) (h : IsAddress ip port) :
    (node.updateNext ip port).mustForward = true := by
  have hport : port ≠ -1 := by
    intro heq
    have hpos := h.pos
    rw [heq] at hpos
    exact absurd hpos (by decide)
  cases hrole : node.role <;> simp [mustForward, updateNext, hrole, hport]

theorem stretch_launch (h : Extension net nodes t ip port) :
    Stretch net t ip port (launch nodes) where
  inner := h.inner
  last := Or.inl h.last
  added := by
    rcases h.added with ⟨nextIp, hadded⟩
    simp [launch, hadded, MetadataNode.launch, servesReads]
  commands := by simp [launch]

/-- What a step makes of the links of a node: `UPDATE_NEXT` changes those of node `t`. -/
theorem Stretch.relinked (h : Stretch net t ip port s) (haddress : IsAddress ip port)
    (hfree : Extending t ip port s l) (hstep : Step net s l s') (v : Nat) :
    SameLinks (s.nodes v) (s'.nodes v) ∨ v = t ∧ s'.nodes v = (s.nodes v).updateNext ip port := by
  have hrelinks := hstep.relinks v
  generalize s'.nodes v = node at hrelinks ⊢
  cases hrelinks with
  | keep _ _ hsame => exact Or.inl hsame
  | respond id c _ reply hc hnode hdispatch =>
      rcases h.commands id c hc with hrequest | ⟨ht, hcommand⟩
      · exact absurd hdispatch (not_respond_of_isRequest hrequest _ _ _)
      · rw [hcommand, dispatch_updateNext haddress] at hdispatch
        injection hdispatch with hnode' _
        exact Or.inr ⟨hnode.symm.trans ht, hnode'.symm⟩
  | recover _ => cases hfree

theorem Stretch.step (h : Stretch net t ip port s) (haddress : IsAddress ip port)
    (hbasic : Basic net nodes s) (hfree : Extending t ip port s l) (hstep : Step net s l s') :
    Stretch net t ip port s' where
  inner := by
    intro v hv
    rcases h.relinked haddress hfree hstep v with hsame | ⟨ht, _⟩
    · rw [hsame.mustForward, hsame.nextNodeIp, hsame.nextNodePort]
      exact h.inner v hv
    · exact absurd ht hv.ne
  last := by
    rcases h.relinked haddress hfree hstep t with hsame | ⟨_, hnode⟩
    · rw [hsame.servesReads, hsame.mustForward, hsame.nextNodeIp, hsame.nextNodePort]
      exact h.last
    · -- The link to the new node is set in this step.
      rw [hnode]
      exact Or.inr ⟨mustForward_updateNext _ haddress, rfl, rfl⟩
  added := by
    rcases h.relinked haddress hfree hstep (t + 1) with hsame | ⟨ht, _⟩
    · rw [hsame.servesReads]
      exact h.added
    · exact absurd ht (Nat.succ_ne_self t)
  commands := fun _ _ hd => by
    refine hstep.command hbasic h.commands ?_ ?_ hd
    · rintro c c' hnode hcommand ⟨ht, hc⟩
      exact ⟨hnode.trans ht, hcommand.trans hc⟩
    · intro c hopens hparent
      cases hopens with
      | client v command _ => exact hfree
      | forward => cases hparent
      | notice => cases hfree

/-- Once node `t` forwards, it goes on forwarding. -/
theorem Stretch.forwards (h : Stretch net t ip port s) (haddress : IsAddress ip port)
    (hfree : Extending t ip port s l) (hstep : Step net s l s')
    (hforward : (s.nodes t).mustForward = true) : (s'.nodes t).mustForward = true := by
  rcases h.relinked haddress hfree hstep t with hsame | ⟨_, hnode⟩
  · exact hsame.mustForward.trans hforward
  · rw [hnode]
    exact mustForward_updateNext _ haddress

/-- The next node of an inner node. -/
theorem Stretch.next (h : Stretch net t ip port s) {v x : Nat} (hv : v < t)
    (hx : s.nextUp net v = some x) : x = v + 1 := by
  have hresolve := (nextUp_eq_some hx).1
  rw [(h.inner v hv).2] at hresolve
  exact (Option.some.inj hresolve).symm

/-! ## Before and after the command -/

/-- At all times: what a node of the chain has acknowledged, node `t` has answered. -/
theorem acknowledged_upto (hext : Extension net nodes t ip port)
    (h : Run (Chain.step net) (Extending t ip port) (launch nodes) tr s) :
    Stretch net t ip port s ∧ Acknowledged (fun _ => True) (t + 1) (fun _ => True) s := by
  refine h.state_invariant (I := fun s => Stretch net t ip port s ∧
    Acknowledged (fun _ => True) (t + 1) (fun _ => True) s)
    ⟨stretch_launch hext, acknowledged_launch⟩ ?_
  rintro tr s l s' hrun ⟨hstretch, hack⟩ hfree hs
  have hbasic := Basic.run hrun
  have hstep := step_cases hs
  refine ⟨hstretch.step hext.address hbasic hfree hstep, hack.step hbasic hstep ?_ ?_⟩
  · intro id c hc _ hmust _ w hw hwt _
    have hinner := (hstretch.inner c.node (by omega)).1
    rw [hinner] at hmust
    cases hmust
  · intro id c x _ _ hx _ w hw hwt _
    rw [hstretch.next (by omega) hx]
    exact hw

/-- From a state on in which node `t` forwards: what it had not answered by then and a node
acknowledges, node `t + 1` has answered. -/
theorem acknowledged_beyond (hext : Extension net nodes t ip port) {tr' : List (Chain × Label)}
    (h : Run (Chain.step net) (Extending t ip port) (launch nodes) tr s₁)
    (hswitch : (s₁.nodes t).mustForward = true)
    (h' : Run (Chain.step net) (Extending t ip port) s₁ tr' s) :
    Stretch net t ip port s ∧ (s.nodes t).mustForward = true ∧
      Acknowledged (s₁.Unanswered t) (t + 2) (fun _ => True) s := by
  rcases acknowledged_upto hext h with ⟨hstretch₁, hack₁⟩
  have hbasic₁ := Basic.run h
  -- What had been acknowledged up to `t` counts for no request that `t` has not answered.
  have hstart : Acknowledged (s₁.Unanswered t) (t + 2) (fun _ => True) s₁ := by
    refine ⟨hack₁.waiting, ?_, ?_⟩
    · intro id c p cp hc hp hcp hQ w hw hwt _
      have hnode := (hbasic₁.opened id c hc).2
      rw [hext.size] at hnode
      by_cases hwt' : w = t + 1
      · omega
      · exact hack₁.passed id c p cp hc hp hcp trivial w hw (by omega) trivial
    · intro id c r hc hr hreply hQ w hw hwt _
      have hnode := (hbasic₁.opened id c hc).2
      rw [hext.size] at hnode
      by_cases hct : c.node ≤ t
      · -- Node `t` has answered it, which it had not.
        rcases hack₁.acked id c r hc hr hreply trivial t hct (Nat.lt_succ_self t) trivial with
          ⟨k, d, hd, hdt, horigin, _, hdone⟩
        exact absurd hdone (hQ k d hd hdt horigin)
      · exact ⟨id, c, hc, by omega, rfl, rfl, by simp [hreply, Phase.Answered]⟩
  refine h'.state_invariant (I := fun s => Stretch net t ip port s ∧
    (s.nodes t).mustForward = true ∧ Acknowledged (s₁.Unanswered t) (t + 2) (fun _ => True) s)
    ⟨hstretch₁, hswitch, hstart⟩ ?_
  rintro tr s l s' hrun ⟨hstretch, hforward, hack⟩ hfree hs
  have hbasic := Basic.run (h.trans hrun)
  have hstep := step_cases hs
  refine ⟨hstretch.step hext.address hbasic hfree hstep,
    hstretch.forwards hext.address hfree hstep hforward, hack.step hbasic hstep ?_ ?_⟩
  · -- Up to `t`, every node forwards.
    intro id c hc _ hmust _ w hw hwt _
    rcases Nat.lt_or_eq_of_le (show c.node ≤ t by omega) with hinner | hlast
    · rw [(hstretch.inner c.node hinner).1] at hmust
      cases hmust
    · rw [hlast, hforward] at hmust
      cases hmust
  · -- And each forwards to the node behind it, `t` to the new one.
    intro id c x _ _ hx _ w hw hwt _
    rcases Nat.lt_or_eq_of_le (show c.node ≤ t by omega) with hinner | hlast
    · rw [hstretch.next hinner hx]
      exact hw
    · have hresolve := (nextUp_eq_some hx).1
      rcases hstretch.last with hserves | ⟨_, hip, hport⟩
      · rw [servesReads_of_mustForward hforward] at hserves
        cases hserves
      · rw [hlast, hip, hport, hext.resolve] at hresolve
        have hx' := Option.some.inj hresolve
        omega

/-! ## Reads at the new node -/

/-- A `GET` has been answered at a node. -/
def ReadAt (s : Chain) (g v : Nat) (filename reply : Bytes) : Prop :=
  ∃ d, s.conns g = some d ∧ d.node = v ∧ request d.command = some (.get filename) ∧
    d.phase = .replied reply

/-- The `GET`s of a name at a node that were opened after a state: their answers satisfy `G`. -/
def Reads (s₀ : Chain) (v : Nat) (filename : Bytes) (G : Bytes → Prop) (s : Chain) : Prop :=
  ∀ g d, s.conns g = some d → s₀.conns g = none → d.node = v →
    request d.command = some (.get filename) →
    d.phase = .received ∨ d.phase = .reading filename ∨ d.phase = .taken ∨
      ∃ reply, d.phase = .replied reply ∧ G reply

/-- A node answers with what it holds, or sends the reader to the last node. -/
theorem Reads.step_of {s₀ : Chain} {v : Nat} {filename : Bytes} {G G' : Bytes → Prop}
    (h : Reads s₀ v filename G s) (hstep : Step net s l s')
    (hredirect : (s.nodes v).servesReads = false → G' (ascii "REDIRECT_TO_TAIL"))
    (hnow : G' (lookupMessage ((s.nodes v).metadataStore filename)))
    (hmono : ∀ reply, G reply → G' reply) : Reads s₀ v filename G' s' := by
  intro g d hd hnew hnode hget
  rcases hstep.conn hd with ⟨_, hopens⟩ | ⟨d', hd', hnode', hcommand, _, _, hevolves⟩
  · cases hopens <;> exact Or.inl rfl
  · rw [hnode'] at hnode
    rw [hcommand] at hget
    have hdispatch : (s.nodes d'.node).dispatch d'.command = .get filename :=
      (request_eq_get _).1 hget
    have hbefore := h g d' hd' hnew hnode hget
    generalize d.phase = phase at hevolves ⊢
    cases hevolves with
    | same =>
        -- The handler is where it was.
        rcases hbefore with hphase | hphase | hphase | ⟨reply, hphase, hG⟩
        · exact Or.inl hphase
        · exact Or.inr (Or.inl hphase)
        · exact Or.inr (Or.inr (Or.inl hphase))
        · exact Or.inr (Or.inr (Or.inr ⟨reply, hphase, hmono reply hG⟩))
    | move _ hmove =>
        cases hmove with
        | close _ hother => cases hdispatch.symm.trans hother
        | badArgs _ hother _ => cases hdispatch.symm.trans hother
        | redirect _ _ _ hrefuses =>
            exact Or.inr (Or.inr (Or.inr ⟨_, rfl, hredirect (hnode ▸ hrefuses)⟩))
        | startRead _ _ hother =>
            cases hdispatch.symm.trans hother
            exact Or.inr (Or.inl rfl)
        | ignore _ hother => cases hdispatch.symm.trans hother
        | sendOn hphase _ => simp [hphase] at hbefore
        | ack hphase _ => simp [hphase] at hbefore
        | noNext hphase _ => simp [hphase] at hbefore
        | relay _ _ _ hphase _ _ => simp [hphase] at hbefore
        | read _ hphase =>
            -- It reads the store as it is now.
            simp only [hphase, reduceCtorEq, false_or, Phase.reading.injEq, false_and, exists_false,
              or_false] at hbefore
            rw [hnode, hbefore]
            exact Or.inr (Or.inr (Or.inr ⟨_, rfl, hnow⟩))
    | store record _ hput => cases hget.symm.trans hput
    | respond reply _ hother => cases hdispatch.symm.trans hother
    | forward k hphase => simp [hphase] at hbefore
    | refuse hphase => simp [hphase] at hbefore
    | take reply _ => exact Or.inr (Or.inr (Or.inl rfl))

/-- A node that serves reads answers with what it holds. -/
theorem Reads.step {s₀ : Chain} {v : Nat} {filename : Bytes} {G G' : Bytes → Prop}
    (h : Reads s₀ v filename G s) (hstep : Step net s l s')
    (hserves : (s.nodes v).servesReads = true)
    (hnow : G' (lookupMessage ((s.nodes v).metadataStore filename)))
    (hmono : ∀ reply, G reply → G' reply) : Reads s₀ v filename G' s' := by
  refine h.step_of hstep ?_ hnow hmono
  intro hrefuses
  rw [hserves] at hrefuses
  cases hrefuses

theorem Reads.readAt {s₀ : Chain} {v g : Nat} {filename reply : Bytes} {G : Bytes → Prop}
    (h : Reads s₀ v filename G s) (hnew : s₀.conns g = none) (hread : s.ReadAt g v filename reply) :
    G reply := by
  rcases hread with ⟨d, hd, hnode, hget, hphase⟩
  rcases h g d hd hnew hnode hget with hother | hother | hother | ⟨reply', hreply, hG⟩
  · cases hphase.symm.trans hother
  · cases hphase.symm.trans hother
  · cases hphase.symm.trans hother
  · cases hphase.symm.trans hreply
    exact hG

/-- A name that no `PUT` has brought to the new node is not found there. -/
theorem reads_nothing (hext : Extension net nodes t ip port)
    (h : Run (Chain.step net) (Extending t ip port) (launch nodes) tr s) (filename : Bytes) :
    Reads (launch nodes) (t + 1) filename
      (fun reply => (∀ e ∈ s.log, e.node = t + 1 → e.record.filename ≠ filename) →
        reply = ascii "NOT_FOUND") s := by
  refine h.state_invariant (I := fun s => Reads (launch nodes) (t + 1) filename
    (fun reply => (∀ e ∈ s.log, e.node = t + 1 → e.record.filename ≠ filename) →
      reply = ascii "NOT_FOUND") s) (by simp [Reads, launch]) ?_
  intro tr s l s' hrun hI hfree hs
  have hbasic := Basic.run hrun
  have hstep := step_cases hs
  have hlog := hstep.log_sublist.subset
  refine hI.step hstep (acknowledged_upto hext hrun).1.added ?_ ?_
  · intro hnone
    have hlast := lastWrite_eq_none.2 fun e he => hnone e (hlog he)
    rcases hext.added with ⟨nextIp, hadded⟩
    rw [hbasic.store, storedAt, hlast, hadded]
    rfl
  · intro reply hreply hnone
    exact hreply fun e he => hnone e (hlog he)

/-- What is sent after a state has not been answered in it. -/
theorem unanswered_of_opened (hbasic : Basic net nodes s) {origin : Nat} (h : s.opened ≤ origin) :
    s.Unanswered t origin := by
  intro k d hd _ horigin
  rcases hbasic.root k d hd with ⟨dr, hdr, _⟩
  have hlt := (hbasic.opened _ dr hdr).1
  rw [horigin] at hlt
  exact absurd hlt (not_lt_of_ge h)

end

/-! ## Two nodes -/

/-- Two nodes, each started as a last one. -/
def localTails (v : Nat) : MetadataNode :=
  MetadataNode.launch [] (-1) (9001 + v)

theorem extension_local :
    Extension (localNet 2) localTails 0 (ascii "127.0.0.1") 9002 where
  size := rfl
  inner := fun v hv => absurd hv (Nat.not_lt_zero v)
  last := rfl
  added := ⟨[], rfl⟩
  address := ⟨by decide +kernel, by decide, by decide⟩
  resolve := by decide

/-- A `PUT` of `a` at the first node, acknowledged. -/
def putFirst : List Label :=
  [.connect 0 (ascii "PUT a 1 2 3 r x"), .serve 0, .serve 0]

/-- The second node is put behind the first. -/
def extend (id : Nat) : List Label :=
  [.connect 0 (linkCommand (ascii "UPDATE_NEXT") (ascii "127.0.0.1") 9002), .serve id]

/-- A `GET` of `a` at the second node. -/
def readSecond (id : Nat) : List Label :=
  [.connect 1 (ascii "GET a"), .serve id, .serve id]

/-- The record that is put. -/
def recordA : FileMetadata :=
  ⟨ascii "a", ascii "r", 1, 2, 3, [ascii "x"]⟩

/-- What a chain has acknowledged before it is extended is found at the new node. -/
def HidesNothing (net : Network) (nodes : Nat → MetadataNode) (t : Nat) (ip : Bytes)
    (port : Int) : Prop :=
  ∀ tr₁ s₁ tr₂ s₂ id c r g reply,
    Run (Chain.step net) (Extending t ip port) (launch nodes) tr₁ s₁ →
    s₁.conns id = some c → request c.command = some (.put r) → c.phase = .replied (ascii "ACK") →
    Run (Chain.step net) (Extending t ip port) s₁ tr₂ s₂ → (s₂.nodes t).mustForward = true →
    s₁.conns g = none → s₂.ReadAt g (t + 1) r.filename reply →
    ∃ e ∈ s₂.log, e.record.filename = r.filename ∧ reply = foundMessage e.record

end Chain
end Metadata
end Dfs

import Dfs.Metadata.Reconfiguration

/-!
# What an acknowledgement promises

A node acknowledges a `PUT` when it is at an end of the chain, or when the node it has forwarded
the command to acknowledges.  So an acknowledgement is worth what lies between: as long as no
forward passes over a node that matters, and no node that matters lies behind an end, the handlers
of all of them have stored the record.

Which nodes and which requests matter is a parameter, since the chain may be broken in some places
or in some of the time.
-/

namespace Dfs
namespace Metadata

open Bytes TextScan

/-- A reply has been sent. -/
def Phase.Answered : Phase → Prop
  | .replied _ => True
  | .taken => True
  | _ => False

namespace Chain

/-- A connection of the request that `c` carries has been answered at node `w`. -/
def AnsweredAt (s : Chain) (c : Conn) (w : Nat) : Prop :=
  ∃ k d, s.conns k = some d ∧ d.node = w ∧ d.origin = c.origin ∧ d.command = c.command ∧
    d.phase.Answered

/-- `Q` says which requests matter, by their origins, and `L` which of the nodes below `m` do. -/
structure Acknowledged (Q : Nat → Prop) (m : Nat) (L : Nat → Prop) (s : Chain) : Prop where
  waiting : ∀ id c k, s.conns id = some c → c.phase = .waiting k →
    ∃ ck, s.conns k = some ck ∧ ck.parent = some id
  passed : ∀ id c p cp, s.conns id = some c → c.parent = some p → s.conns p = some cp →
    Q c.origin → ∀ w, cp.node < w → w < m → L w → c.node ≤ w
  acked : ∀ id c r, s.conns id = some c → request c.command = some (.put r) →
    c.phase = .replied (ascii "ACK") → Q c.origin →
    ∀ w, c.node ≤ w → w < m → L w → s.AnsweredAt c w

section Preserved

variable {net : Network} {nodes : Nat → MetadataNode} {Q L L' : Nat → Prop} {m : Nat}
  {s s' : Chain} {l : Label} {id w : Nat} {c : Conn}

theorem acknowledged_launch : Acknowledged Q m L (launch nodes) where
  waiting := by simp [launch]
  passed := by simp [launch]
  acked := by simp [launch]

/-- Fewer nodes matter. -/
theorem Acknowledged.mono (h : Acknowledged Q m L s) (hL : ∀ w, L' w → L w) :
    Acknowledged Q m L' s where
  waiting := h.waiting
  passed := fun id c p cp hc hp hcp hQ w hw hm hl => h.passed id c p cp hc hp hcp hQ w hw hm (hL w hl)
  acked := fun id c r hc hr hack hQ w hw hm hl => h.acked id c r hc hr hack hQ w hw hm (hL w hl)

/-! ## Answers -/

/-- What has been answered stays so. -/
theorem Evolves.answered {phase : Phase} (h : Evolves net s s' c phase) (hc : c.phase.Answered) :
    phase.Answered := by
  cases h with
  | same => exact hc
  | move _ hmove =>
      cases hmove with
      | close hphase _ => simp [hphase, Phase.Answered] at hc
      | startRead _ hphase _ _ => simp [hphase, Phase.Answered] at hc
      | ignore hphase _ => simp [hphase, Phase.Answered] at hc
      | sendOn hphase _ => simp [hphase, Phase.Answered] at hc
      | _ => trivial
  | store _ hphase _ => simp [hphase, Phase.Answered] at hc
  | respond _ _ _ => trivial
  | forward _ hphase => simp [hphase, Phase.Answered] at hc
  | refuse _ => trivial
  | take _ _ => trivial

theorem AnsweredAt.step (h : s.AnsweredAt c w) (hbasic : Basic net nodes s)
    (hstep : Step net s l s') : s'.AnsweredAt c w := by
  rcases h with ⟨k, d, hd, hnode, horigin, hcommand, hdone⟩
  rcases hstep.evolves hbasic hd with ⟨phase, lost, hd', hevolves⟩
  exact ⟨k, _, hd', hnode, horigin, hcommand, hevolves.answered hdone⟩

/-- Only the request matters, not the connection. -/
theorem AnsweredAt.congr {c' : Conn} (h : s.AnsweredAt c w) (horigin : c'.origin = c.origin)
    (hcommand : c'.command = c.command) : s.AnsweredAt c' w := by
  rcases h with ⟨k, d, hd, hnode, horigin', hcommand', hdone⟩
  exact ⟨k, d, hd, hnode, horigin'.trans horigin.symm, hcommand'.trans hcommand.symm, hdone⟩

theorem forwardReply_eq_ack {reply : Bytes} (h : forwardReply reply = ascii "ACK") :
    reply = ascii "ACK" := by
  by_contra hne
  rw [forwardReply, if_neg hne] at h
  revert h
  decide

theorem arrived_ack (h : arrived c = some (ascii "ACK")) : c.phase = .replied (ascii "ACK") := by
  have hne : ascii "ACK" ≠ [] := by decide
  unfold arrived at h
  split at h
  · exact absurd (Option.some.inj h).symm hne
  · split at h
    · rename_i reply hphase
      rw [hphase, Option.some.inj h]
    · exact absurd (Option.some.inj h).symm hne
    · cases h

theorem lookupMessage_ne_ack (found : Option FileMetadata) :
    MetadataNode.lookupMessage found ≠ ascii "ACK" := by
  cases found with
  | none => decide
  | some record =>
      intro h
      have hhead : some 70 = (ascii "ACK").head? := congrArg List.head? h
      revert hhead
      decide

/-- A handler that acknowledges a `PUT` is at an end, or its forward has been acknowledged. -/
theorem Evolves.acked (h : Evolves net s s' c (.replied (ascii "ACK"))) {r : FileMetadata}
    (hr : request c.command = some (.put r)) :
    c.phase = .replied (ascii "ACK") ∨
      c.phase = .stored ∧ (s.nodes c.node).mustForward = false ∨
      ∃ child cc, c.phase = .waiting child ∧ s.conns child = some cc ∧
        cc.phase = .replied (ascii "ACK") := by
  have hne : ascii "ACK" ≠ ascii "ERROR_ARGS" ∧ ascii "ACK" ≠ ascii "REDIRECT_TO_TAIL" ∧
      ascii "ACK" ≠ ascii "ERROR_FORWARD" := by decide
  generalize hphase : Phase.replied (ascii "ACK") = phase at h
  cases h with
  | same => exact Or.inl rfl
  | move _ hmove =>
      cases hmove with
      | badArgs _ _ _ => exact absurd (Phase.replied.inj hphase) hne.1
      | redirect _ _ _ _ => exact absurd (Phase.replied.inj hphase) hne.2.1
      | ack hstored hmust => exact Or.inr (Or.inl ⟨hstored, hmust⟩)
      | noNext _ _ => exact absurd (Phase.replied.inj hphase) hne.2.2
      | relay child cc reply hwaiting hcc hreply =>
          have hack := forwardReply_eq_ack (Phase.replied.inj hphase).symm
          rw [← hphase]
          exact Or.inr (Or.inr ⟨child, cc, hwaiting, hcc, arrived_ack (hack ▸ hreply)⟩)
      | read _ _ => exact absurd (Phase.replied.inj hphase).symm (lookupMessage_ne_ack _)
      | _ => cases hphase
  | respond _ _ hdispatch => cases hdispatch.symm.trans ((request_eq_put _).1 hr).1
  | refuse _ => exact absurd (Phase.replied.inj hphase) hne.2.2
  | _ => cases hphase

/-- What keeps the promise: nodes that do not forward have no node that matters behind them, and
nodes that do forward pass over none. -/
theorem Acknowledged.step (h : Acknowledged Q m L s) (hbasic : Basic net nodes s)
    (hstep : Step net s l s')
    (hend : ∀ id c, s.conns id = some c → c.phase = .stored →
      (s.nodes c.node).mustForward = false → Q c.origin → ∀ w, c.node < w → w < m → ¬ L w)
    (hnext : ∀ id c x, s.conns id = some c → c.phase = .forwarding →
      s.nextUp net c.node = some x → Q c.origin → ∀ w, c.node < w → w < m → L w → x ≤ w) :
    Acknowledged Q m L s' where
  waiting := hstep.waiting hbasic h.waiting
  passed := by
    intro id c p cp hc hp hcp hQ w hw hm hl
    rcases hstep.conn_cases hc with hnew | ⟨c', hc', hkept⟩
    · cases hnew.opens with
      | forward p' c' x hc' hphase hx =>
          cases hp
          rcases hstep.persist hbasic p c' hc' with ⟨_, _, hc''⟩
          cases hc''.symm.trans hcp
          exact hnext p c' x hc' hphase hx hQ w hw hm hl
      | client v command _ => cases hp
      | notice v node message w _ _ => cases hp
    · rw [hkept.parent] at hp
      rw [hkept.origin] at hQ
      rw [hkept.node]
      rcases hbasic.forwarded id c' p hc' hp with ⟨cp', hcp', _⟩
      rcases hstep.persist hbasic p cp' hcp' with ⟨_, _, hcp''⟩
      cases hcp''.symm.trans hcp
      exact h.passed id c' p cp' hc' hp hcp' hQ w hw hm hl
  acked := by
    intro id c r hc hr hphase hQ w hw hm hl
    rcases hstep.conn_cases hc with hnew | ⟨c', hc', hkept⟩
    · cases hnew.opens <;> cases hphase
    · have hevolves := hkept.evolves
      rw [hphase] at hevolves
      rw [hkept.command] at hr
      rw [hkept.origin] at hQ
      rw [hkept.node] at hw
      rcases Nat.eq_or_lt_of_le hw with hnode | hlt
      · -- The node that acknowledges has answered itself.
        exact ⟨id, c, hc, hkept.node.trans hnode, rfl, rfl, by rw [hphase]; trivial⟩
      · -- For a node behind it, the answer is an old one, or comes from the end or a forward.
        have hbehind : s.AnsweredAt c' w := by
          rcases hevolves.acked hr with
            hold | ⟨hstored, hmust⟩ | ⟨child, cc, hwaiting, hcc, hack⟩
          · exact h.acked id c' r hc' hr hold hQ w hw hm hl
          · exact absurd hl (hend id c' hc' hstored hmust hQ w hlt hm)
          · rcases h.waiting id c' child hc' hwaiting with ⟨cc', hcc', hparent⟩
            cases hcc.symm.trans hcc'
            rcases hbasic.forwarded child cc id hcc hparent with ⟨c'', hc'', hcommand, horigin, _⟩
            cases hc'.symm.trans hc''
            -- No node that matters lies between the two.
            have hnode := h.passed child cc id c' hcc hparent hc' (horigin ▸ hQ) w hlt hm hl
            have hanswered :=
              h.acked child cc r hcc (hcommand ▸ hr) hack (horigin ▸ hQ) w hnode hm hl
            exact hanswered.congr horigin hcommand
        exact (hbehind.step hbasic hstep).congr hkept.origin hkept.command

/-! ## Later entries -/

/-- `e` is the entry `a` of the log, or a later one at the same node under the same name. -/
structure NoEarlier (log : List Applied) (a e : Applied) : Prop where
  node : e.node = a.node
  filename : e.record.filename = a.record.filename
  order : e = a ∨ [a, e].Sublist log

theorem NoEarlier.mono {log log' : List Applied} {a e : Applied} (h : NoEarlier log a e)
    (hlog : log.Sublist log') : NoEarlier log' a e :=
  ⟨h.node, h.filename, h.order.imp id fun hpair => hpair.trans hlog⟩

/-- What a node holds under the name of a record it has stored. -/
theorem Basic.holds (h : Basic net nodes s) {a : Applied} (ha : a ∈ s.log) :
    ∃ e ∈ s.log, NoEarlier s.log a e ∧
      (s.nodes a.node).metadataStore a.record.filename = some e.record := by
  cases hlast : lastWrite s.log a.node a.record.filename with
  | none => exact absurd rfl (lastWrite_eq_none.1 hlast a ha rfl)
  | some e =>
      rcases lastWrite_eq_some hlast with ⟨he, hnode, hname⟩
      refine ⟨e, he, ⟨hnode, hname, ?_⟩, by rw [h.store, storedAt, hlast]⟩
      by_cases heq : e = a
      · exact Or.inl heq
      · exact Or.inr (sublist_lastWrite hlast ha rfl rfl (Ne.symm heq))

/-- A request that has been answered at a node has been stored there. -/
theorem AnsweredAt.logged (h : s.AnsweredAt c w) (hbasic : Basic net nodes s) {r : FileMetadata}
    (hr : request c.command = some (.put r)) : ⟨w, c.origin, r⟩ ∈ s.log := by
  rcases h with ⟨k, d, hd, hnode, horigin, hcommand, hdone⟩
  have hlogged := hbasic.logged k d r hd (hcommand ▸ hr) (by
    intro hphase
    simp [hphase, Phase.Answered] at hdone)
  rwa [hnode, horigin] at hlogged

end Preserved

end Chain
end Metadata
end Dfs

import Dfs.Metadata.Acknowledged

/-!
# Recovery over skip links

Each node is told the node before it and the node after the next one.  When the next node has
crashed, the health check makes the skip link the next link and tells the node there of its new
predecessor; without a skip link the node becomes the last one.

As long as no two neighbours crash, every live node points at one of the two nodes behind it, or at
none: `Links` is the invariant of all nodes, repaired or not.
-/

namespace Dfs
namespace Metadata

open Bytes TextScan MetadataNode

/-- Where the nodes of a network listen.  Nothing listens at the address of no node. -/
structure Addresses (net : Network) where
  ip : Nat → Bytes
  port : Nat → Int
  address : ∀ v < net.size, IsAddress (ip v) (port v)
  resolve : ∀ v < net.size, net.resolve (ip v) (port v) = some v
  unset : net.resolve [] (-1) = none

namespace Addresses

variable {net : Network} (a : Addresses net)

/-- A node as it has been started, with the address of the one behind it. -/
def launched (v : Nat) : MetadataNode :=
  if v + 1 < net.size then MetadataNode.launch (a.ip (v + 1)) (a.port (v + 1)) (a.port v)
  else MetadataNode.launch [] (-1) (a.port v)

/-- The node after it has been sent `UPDATE_PREV` and `SET_SKIP`. -/
def linked (v : Nat) : MetadataNode :=
  let node := a.launched v
  let node :=
    if 0 < v then
      node.receive (linkCommand (ascii "UPDATE_PREV") (a.ip (v - 1)) (a.port (v - 1)))
    else node
  if v + 2 < net.size then
    node.receive (linkCommand (ascii "SET_SKIP") (a.ip (v + 2)) (a.port (v + 2)))
  else node

/-- What `notifyNextOfPredecessor` of a node sends. -/
def notice (v : Nat) : Bytes :=
  linkCommand (ascii "UPDATE_PREV") (ascii "127.0.0.1") (a.port v)

/-- The next node is the one behind, and the skip link leads to the one behind that. -/
structure Intact (v : Nat) (node : MetadataNode) : Prop where
  next : v + 1 < net.size → node.nextNodeIp = a.ip (v + 1) ∧ node.nextNodePort = a.port (v + 1)
  skip : v + 2 < net.size → node.skipToIp = a.ip (v + 2) ∧ node.skipToPort = a.port (v + 2)
  noSkip : v + 2 = net.size → node.skipToPort = -1
  inner : v + 1 < net.size → node.role = .head ∨ node.role = .middle
  last : v + 1 = net.size → node.role = .tail ∧ node.nextNodePort = -1

/-- The next node is the one behind the crashed one, if there is one. -/
structure Repaired (v : Nat) (node : MetadataNode) : Prop where
  next : v + 2 < net.size → node.nextNodeIp = a.ip (v + 2) ∧ node.nextNodePort = a.port (v + 2)
  inner : v + 2 < net.size → node.role = .head ∨ node.role = .middle
  last : v + 2 = net.size → node.role = (if v = 0 then .single else .tail) ∧
    node.nextNodeIp = [] ∧ node.nextNodePort = -1

section

variable {a} {v : Nat} {node node' : MetadataNode}

theorem port_ne (hv : v < net.size) : a.port v ≠ -1 := by
  have hpos := (a.address v hv).pos
  omega

theorem Intact.congr (h : a.Intact v node) (hsame : SameLinks node node') : a.Intact v node' := by
  rw [hsame]
  exact ⟨h.next, h.skip, h.noSkip, h.inner, h.last⟩

theorem Repaired.congr (h : a.Repaired v node) (hsame : SameLinks node node') :
    a.Repaired v node' := by
  rw [hsame]
  exact ⟨h.next, h.inner, h.last⟩

/-- `UPDATE_PREV` leaves a node of the chain where it is. -/
theorem updatePrev_inner {node : MetadataNode} (h : node.role = .head ∨ node.role = .middle)
    (ip : Bytes) (port : Int) : (node.updatePrev ip port).role = .middle := by
  rcases h with h | h <;> simp [updatePrev, h]

theorem Intact.updatePrev (h : a.Intact v node) (ip : Bytes) (port : Int) :
    a.Intact v (node.updatePrev ip port) where
  next := h.next
  skip := h.skip
  noSkip := h.noSkip
  inner := fun hv => Or.inr (updatePrev_inner (h.inner hv) ip port)
  last := fun hv => ⟨by simp [MetadataNode.updatePrev, (h.last hv).1], (h.last hv).2⟩

theorem Repaired.updatePrev (h : a.Repaired v node) (hv : v ≠ 0) (ip : Bytes) (port : Int) :
    a.Repaired v (node.updatePrev ip port) where
  next := h.next
  inner := fun hn => Or.inr (updatePrev_inner (h.inner hn) ip port)
  last := fun hn => by
    have hrole := (h.last hn).1
    rw [if_neg hv] at hrole ⊢
    exact ⟨by simp [MetadataNode.updatePrev, hrole], (h.last hn).2⟩

theorem linked_eq (hv : v < net.size) :
    a.linked v =
      { a.launched v with
        prevNodeIp := if 0 < v then a.ip (v - 1) else []
        prevNodePort := if 0 < v then a.port (v - 1) else -1
        skipToIp := if v + 2 < net.size then a.ip (v + 2) else []
        skipToPort := if v + 2 < net.size then a.port (v + 2) else -1
        role := if v + 1 < net.size then (if 0 < v then .middle else .head) else .tail } := by
  have hprev : ∀ node : MetadataNode,
      node.receive (linkCommand (ascii "UPDATE_PREV") (a.ip (v - 1)) (a.port (v - 1))) =
        node.updatePrev (a.ip (v - 1)) (a.port (v - 1)) := by
    intro node
    rw [receive, dispatch_updatePrev (a.address (v - 1) (by omega))]
  have hskip : v + 2 < net.size → ∀ node : MetadataNode,
      node.receive (linkCommand (ascii "SET_SKIP") (a.ip (v + 2)) (a.port (v + 2))) =
        node.setSkip (a.ip (v + 2)) (a.port (v + 2)) := by
    intro hn node
    rw [receive, dispatch_setSkip (a.address (v + 2) hn)]
  -- The links that a node is launched with, before any command.
  have hlaunched : (a.launched v).role = (if v + 1 < net.size then .head else .tail) ∧
      (a.launched v).prevNodeIp = [] ∧ (a.launched v).prevNodePort = -1 ∧
      (a.launched v).skipToIp = [] ∧ (a.launched v).skipToPort = -1 := by
    by_cases hinner : v + 1 < net.size
    · simp [launched, hinner, MetadataNode.launch, port_ne hinner]
    · simp [launched, hinner, MetadataNode.launch]
  rcases hlaunched with ⟨hrole, hprevIp, hprevPort, hskipIp, hskipPort⟩
  unfold linked
  generalize a.launched v = node at *
  rcases node with ⟨store, nextIp, nextPort, prevIp, prevPort, skipIp, skipPort, role, myPort⟩
  simp only at hrole hprevIp hprevPort hskipIp hskipPort
  subst hrole hprevIp hprevPort hskipIp hskipPort
  -- Inner nodes get both commands; the ends get one of them, or none.
  by_cases hpos : 0 < v
  · by_cases hn : v + 2 < net.size
    · have hinner : v + 1 < net.size := by omega
      simp [hpos, hn, hinner, hprev, hskip hn, updatePrev, setSkip]
    · by_cases hinner : v + 1 < net.size
      · simp [hpos, hn, hinner, hprev, updatePrev]
      · simp [hpos, hn, hinner, hprev, updatePrev]
  · by_cases hn : v + 2 < net.size
    · have hinner : v + 1 < net.size := by omega
      simp [hpos, hn, hinner, hskip hn, setSkip]
    · by_cases hinner : v + 1 < net.size
      · simp [hpos, hn, hinner]
      · simp [hpos, hn, hinner]

/-- The nodes are intact once they are linked. -/
theorem linked_intact (hv : v < net.size) : a.Intact v (a.linked v) ∧ (a.linked v).myPort = a.port v ∧
    (a.linked v).prevNodePort = if v = 0 then -1 else a.port (v - 1) := by
  rw [linked_eq hv]
  refine ⟨⟨fun hn => ?_, fun hn => ?_, fun hn => ?_, fun hn => ?_, fun hn => ?_⟩, ?_, ?_⟩
  · simp [launched, hn, MetadataNode.launch]
  · simp [hn]
  · simp [← hn]
  · by_cases hpos : 0 < v <;> simp [hn, hpos]
  · simp [launched, ← hn, MetadataNode.launch]
  · unfold launched
    split <;> rfl
  · by_cases hpos : v = 0
    · simp [hpos]
    · simp [hpos, Nat.pos_of_ne_zero hpos]

/-! ## `handleNextNodeFailure` -/

theorem notice_eq (v : Nat) :
    ascii "UPDATE_PREV 127.0.0.1 " ++ showInt (a.port v) = a.notice v := by
  have htext : ascii "UPDATE_PREV 127.0.0.1 " =
      ascii "UPDATE_PREV" ++ 32 :: (ascii "127.0.0.1" ++ [32]) := by decide
  simp [notice, linkCommand, htext]

theorem dispatch_notice (hv : v < net.size) :
    node.dispatch (a.notice v) =
      .respond (node.updatePrev (ascii "127.0.0.1") (a.port v)) (ascii "ACK") :=
  dispatch_updatePrev ⟨by decide +kernel, (a.address v hv).pos, (a.address v hv).lt⟩

theorem not_isRequest_notice (hv : v < net.size) : ¬ IsRequest (a.notice v) :=
  fun h => not_respond_of_isRequest h (a.linked v) _ _ (dispatch_notice hv)

/-- With a skip link: the node points there, and tells the node there. -/
theorem Intact.recover_skip (h : a.Intact v node) (hport : node.myPort = a.port v)
    (hv : v + 2 < net.size) : a.Repaired v node.handleNextNodeFailure.1 ∧
      node.handleNextNodeFailure.2 = some (a.notice v) := by
  have hskip : node.skipToPort ≠ -1 := (h.skip hv).2 ▸ port_ne hv
  have hnode : node.handleNextNodeFailure =
      ({ node with
          nextNodeIp := node.skipToIp
          nextNodePort := node.skipToPort
          skipToIp := []
          skipToPort := -1 },
        some (ascii "UPDATE_PREV 127.0.0.1 " ++ showInt node.myPort)) := if_pos hskip
  rw [hnode, hport, notice_eq]
  exact ⟨⟨fun _ => h.skip hv, fun _ => h.inner (by omega), fun hlast => by omega⟩, rfl⟩

/-- Without one: the node becomes the last. -/
theorem Intact.recover_last (h : a.Intact v node)
    (hprev : node.prevNodePort = -1 ↔ v = 0) (hv : v + 2 = net.size) :
    a.Repaired v node.handleNextNodeFailure.1 ∧ node.handleNextNodeFailure.2 = none := by
  have hnode : node.handleNextNodeFailure =
      ({ node with
          nextNodeIp := []
          nextNodePort := -1
          role := if node.prevNodePort = -1 then .single else .tail },
        none) := if_neg (by simp [h.noSkip hv])
  rw [hnode]
  refine ⟨⟨fun hn => by omega, fun hn => by omega, fun _ => ⟨?_, rfl, rfl⟩⟩, rfl⟩
  by_cases hfirst : v = 0
  · simp [hprev.2 hfirst, hfirst]
  · simp [mt hprev.1 hfirst, hfirst]

theorem handleNextNodeFailure_kept (node : MetadataNode) :
    node.handleNextNodeFailure.1.myPort = node.myPort ∧
      node.handleNextNodeFailure.1.prevNodePort = node.prevNodePort := by
  unfold handleNextNodeFailure
  split <;> exact ⟨rfl, rfl⟩

end

end Addresses

namespace Chain

variable {net : Network} {a : Addresses net} {s s' : Chain} {l : Label} {v : Nat}

/-- Requests of clients, crashes of nodes that have no crashed neighbour, and health checks, whose
pings fail when nobody is reached at the next address. -/
def Repairing (net : Network) (s : Chain) : Label → Prop
  | .connect _ command => IsRequest command
  | .crash v => (v = 0 ∨ s.up (v - 1) = true) ∧ s.up (v + 1) = true
  | .pingFails v => s.nextUp net v = none
  | _ => True

instance (s : Chain) (l : Label) : Decidable (Repairing net s l) :=
  match l with
  | .connect _ command => inferInstanceAs (Decidable (IsRequest command))
  | .crash v =>
      inferInstanceAs (Decidable ((v = 0 ∨ s.up (v - 1) = true) ∧ s.up (v + 1) = true))
  | .pingFails v => inferInstanceAs (Decidable (s.nextUp net v = none))
  | .serve _ => inferInstanceAs (Decidable True)
  | .take _ => inferInstanceAs (Decidable True)
  | .refuse _ => inferInstanceAs (Decidable True)
  | .lose _ => inferInstanceAs (Decidable True)
  | .recover _ => inferInstanceAs (Decidable True)

/-! ## The links -/

/-- The connection of a notice of node `u`; once it is served, the node there knows of `u`. -/
structure Notice (a : Addresses net) (s : Chain) (c : Conn) (u : Nat) : Prop where
  inside : u + 2 < net.size
  node : c.node = u + 2
  command : c.command = a.notice u
  crashed : s.up (u + 1) = false
  served : c.phase ≠ .received → (s.nodes (u + 2)).prevNodePort = a.port u

/-- A node that has recovered from the crash of the next one. -/
structure Mended (a : Addresses net) (s : Chain) (v : Nat) : Prop where
  inside : v + 1 < net.size
  crashed : s.up (v + 1) = false
  repaired : a.Repaired v (s.nodes v)
  noticed : v + 2 < net.size → ∃ k d, s.conns k = some d ∧ d.node = v + 2 ∧ d.command = a.notice v

/-- What the links of the nodes are, at all times. -/
structure Links (a : Addresses net) (s : Chain) : Prop where
  neighbours : ∀ v, v + 1 < net.size → s.up v = true ∨ s.up (v + 1) = true
  node : ∀ v < net.size, a.Intact v (s.nodes v) ∨ Mended a s v
  port : ∀ v < net.size, (s.nodes v).myPort = a.port v
  prev : ∀ v < net.size, (s.nodes v).prevNodePort = (if v = 0 then -1 else a.port (v - 1)) ∨
    ∃ u, v = u + 2 ∧ s.up (u + 1) = false ∧ (s.nodes v).prevNodePort = a.port u
  suspected : ∀ v, s.suspected v = true →
    v + 1 < net.size ∧ a.Intact v (s.nodes v) ∧ s.up (v + 1) = false
  commands : ∀ id c, s.conns id = some c → IsRequest c.command ∨ ∃ u, Notice a s c u

theorem links_launch : Links a (launch a.linked) where
  neighbours := fun _ _ => Or.inl rfl
  node := fun _ hv => Or.inl (Addresses.linked_intact hv).1
  port := fun _ hv => (Addresses.linked_intact hv).2.1
  prev := fun _ hv => Or.inl (Addresses.linked_intact hv).2.2
  suspected := by simp [launch]
  commands := by simp [launch]

/-- A node knows no predecessor exactly if it is the first. -/
theorem Links.prev_eq (h : Links a s) (hv : v < net.size) :
    (s.nodes v).prevNodePort = -1 ↔ v = 0 := by
  rcases h.prev v hv with hprev | ⟨u, rfl, _, hprev⟩
  · by_cases hfirst : v = 0
    · subst hfirst
      simpa using hprev
    · have hport := Addresses.port_ne (a := a) (show v - 1 < net.size by omega)
      simp [hprev, hfirst, hport]
  · have hport := Addresses.port_ne (a := a) (show u < net.size by omega)
    simp [hprev, hport]

theorem nextUp_of_resolve {w : Nat}
    (h : net.resolve (s.nodes v).nextNodeIp (s.nodes v).nextNodePort = some w) (hw : w < net.size) :
    s.nextUp net v = if s.up w = true then some w else none := by
  simp [nextUp, h, hw]

/-- The next node of an intact node. -/
theorem Links.nextUp_intact (h : a.Intact v (s.nodes v)) (hv : v + 1 < net.size) :
    s.nextUp net v = if s.up (v + 1) = true then some (v + 1) else none := by
  refine nextUp_of_resolve ?_ hv
  rw [(h.next hv).1, (h.next hv).2]
  exact a.resolve (v + 1) hv

/-- The next node of one that has recovered: it is up, as its neighbour has crashed. -/
theorem Links.nextUp_mended (h : Links a s) (hmended : Mended a s v) (hv : v + 2 < net.size) :
    s.nextUp net v = some (v + 2) ∧ s.up (v + 2) = true := by
  have hup : s.up (v + 2) = true := by
    rcases h.neighbours (v + 1) hv with hup | hup
    · cases hup.symm.trans hmended.crashed
    · exact hup
  have hresolve : net.resolve (s.nodes v).nextNodeIp (s.nodes v).nextNodePort = some (v + 2) := by
    rw [(hmended.repaired.next hv).1, (hmended.repaired.next hv).2]
    exact a.resolve (v + 2) hv
  exact ⟨by rw [nextUp_of_resolve hresolve hv, if_pos hup], hup⟩

/-- A ping fails only where the next node has crashed and the node has not recovered yet. -/
theorem Links.suspect (h : Links a s) (hv : v < net.size) (hport : (s.nodes v).nextNodePort ≠ -1)
    (hping : s.nextUp net v = none) :
    v + 1 < net.size ∧ a.Intact v (s.nodes v) ∧ s.up (v + 1) = false := by
  rcases h.node v hv with hintact | hmended
  · by_cases hlast : v + 1 = net.size
    · exact absurd (hintact.last hlast).2 hport
    · have hinner : v + 1 < net.size := by omega
      rw [nextUp_intact hintact hinner] at hping
      exact ⟨hinner, hintact, by simpa using hping⟩
  · by_cases hlast : v + 2 = net.size
    · exact absurd (hmended.repaired.last hlast).2.2 hport
    · have hinside := hmended.inside
      have hnext := (h.nextUp_mended hmended (by omega)).1
      cases hping.symm.trans hnext

/-- What a step other than a recovery makes of the links of a node: a notice changes its
predecessor. -/
theorem Links.relinked (h : Links a s) (hstep : Step net s l s') (hl : ∀ w, l ≠ .recover w)
    (v : Nat) :
    SameLinks (s.nodes v) (s'.nodes v) ∨ ∃ u, u + 2 < net.size ∧ v = u + 2 ∧
      s.up (u + 1) = false ∧ s'.nodes v = (s.nodes v).updatePrev (ascii "127.0.0.1") (a.port u) := by
  have hrelinks := hstep.relinks v
  generalize s'.nodes v = node at hrelinks ⊢
  cases hrelinks with
  | keep _ _ hsame => exact Or.inl hsame
  | respond id c _ reply hc hnode hdispatch =>
      rcases h.commands id c hc with hrequest | ⟨u, hnotice⟩
      · exact absurd hdispatch (not_respond_of_isRequest hrequest _ _ _)
      · have hu : u < net.size := Nat.lt_of_add_right_lt hnotice.inside
        rw [hnotice.command, Addresses.dispatch_notice hu] at hdispatch
        injection hdispatch with hnode' _
        exact Or.inr ⟨u, hnotice.inside, hnode.symm.trans hnotice.node, hnotice.crashed,
          hnode'.symm⟩
  | recover _ => exact absurd rfl (hl v)

theorem Step.down (h : Step net s l s') (hdown : s.up v = false) : s'.up v = false := by
  cases hup : s'.up v with
  | false => rfl
  | true => exact (h.up_of_up hup).symm.trans hdown

/-- A node that has recovered stays so. -/
theorem Mended.keep {nodes : Nat → MetadataNode} (h : Mended a s v) (hbasic : Basic net nodes s)
    (hstep : Step net s l s') (hrepaired : a.Repaired v (s'.nodes v)) : Mended a s' v where
  inside := h.inside
  crashed := hstep.down h.crashed
  repaired := hrepaired
  noticed := by
    intro hv
    rcases h.noticed hv with ⟨k, d, hd, hnode, hcommand⟩
    rcases hstep.persist hbasic k d hd with ⟨phase, lost, hd'⟩
    exact ⟨k, _, hd', hnode, hcommand⟩

/-- The nodes that are intact and those that have recovered stay so, but for recoveries. -/
theorem Links.keep_node {nodes : Nat → MetadataNode} (h : Links a s) (hbasic : Basic net nodes s)
    (hstep : Step net s l s') (hl : ∀ w, l ≠ .recover w) (v : Nat) :
    (a.Intact v (s.nodes v) → a.Intact v (s'.nodes v)) ∧ (Mended a s v → Mended a s' v) := by
  rcases h.relinked hstep hl v with hsame | ⟨u, _, hv, _, hnode⟩
  · exact ⟨fun hintact => hintact.congr hsame,
      fun hmended => hmended.keep hbasic hstep (hmended.repaired.congr hsame)⟩
  · rw [hnode]
    refine ⟨fun hintact => hintact.updatePrev _ _, fun hmended => ?_⟩
    refine hmended.keep hbasic hstep ?_
    rw [hnode]
    exact hmended.repaired.updatePrev (by omega) _ _

theorem Links.keep_neighbours (h : Links a s) (hfree : Repairing net s l) (hstep : Step net s l s')
    (hv : v + 1 < net.size) : s'.up v = true ∨ s'.up (v + 1) = true := by
  cases hstep with
  | crash w _ =>
      rcases hfree with ⟨hbefore, hafter⟩
      by_cases hw : w = v
      · subst hw
        exact Or.inr (by simpa using hafter)
      · by_cases hw' : w = v + 1
        · subst hw'
          rcases hbefore with hzero | hbefore
          · cases hzero
          · exact Or.inl (by simpa using hbefore)
        · simpa [Ne.symm hw, Ne.symm hw'] using h.neighbours v hv
  | _ => exact h.neighbours v hv

theorem Links.keep_notice {nodes : Nat → MetadataNode} (h : Links a s) (hbasic : Basic net nodes s)
    (hfree : Repairing net s l) (hstep : Step net s l s') (hl : ∀ w, l ≠ .recover w) {k : Nat}
    {d : Conn} (hd : s'.conns k = some d) : IsRequest d.command ∨ ∃ u, Notice a s' d u := by
  rcases hstep.conn hd with ⟨_, hopens⟩ | ⟨d', hd', hnode, hcommand, _, _, hevolves⟩
  · cases hopens with
    | client v command _ => exact Or.inl hfree
    | forward id c w hc hphase _ =>
        rcases hbasic.active id c hc (by simp [hphase, Phase.Active]) with ⟨r, hr⟩
        exact Or.inl (isRequest_of_request hr)
    | notice w => exact absurd rfl (hl w)
  · rcases h.commands k d' hd' with hrequest | ⟨u, hnotice⟩
    · exact Or.inl (hcommand ▸ hrequest)
    · -- An old notice is still one: only whether it is served can have changed.
      have hu : u < net.size := Nat.lt_of_add_right_lt hnotice.inside
      have hdispatch : ∀ node : MetadataNode, node.dispatch d'.command =
          .respond (node.updatePrev (ascii "127.0.0.1") (a.port u)) (ascii "ACK") := by
        intro node
        rw [hnotice.command]
        exact Addresses.dispatch_notice hu
      refine Or.inr ⟨u, hnotice.inside, hnode.trans hnotice.node, hcommand.trans hnotice.command,
        hstep.down hnotice.crashed, fun hphase => ?_⟩
      by_cases hserved : d'.phase = .received
      · -- It is served in this step.
        generalize d.phase = phase at hevolves hphase
        cases hevolves with
        | same => exact absurd hserved hphase
        | move _ hmove =>
            cases hmove with
            | close _ hother => cases (hdispatch _).symm.trans hother
            | badArgs _ hother _ => cases (hdispatch _).symm.trans hother
            | redirect _ _ hother _ => cases (hdispatch _).symm.trans hother
            | startRead _ _ hother _ => cases (hdispatch _).symm.trans hother
            | ignore _ hother => cases (hdispatch _).symm.trans hother
            | sendOn hother _ => cases hserved.symm.trans hother
            | ack hother _ => cases hserved.symm.trans hother
            | noNext hother _ => cases hserved.symm.trans hother
            | relay _ _ _ hother _ _ => cases hserved.symm.trans hother
            | read _ hother => cases hserved.symm.trans hother
        | store record _ hput =>
            cases (hdispatch (s.nodes d'.node)).symm.trans ((request_eq_put _).1 hput).1
        | respond reply _ hother =>
            have heq := (hdispatch (s.nodes d'.node)).symm.trans hother
            injection heq with hnode' _
            rw [← hnotice.node, ← hnode']
            rfl
        | forward k hother => cases hserved.symm.trans hother
        | refuse hother => cases hserved.symm.trans hother
        | take reply hother => cases hserved.symm.trans hother
      · -- It had been served, and only notices of the same node come here.
        have hprev := hnotice.served hserved
        rcases h.relinked hstep hl (u + 2) with hsame | ⟨u', _, hu', _, hnode'⟩
        · exact hsame.prevNodePort.trans hprev
        · have heq : u' = u := by omega
          subst heq
          rw [hnode']
          rfl

theorem Links.step_other {nodes : Nat → MetadataNode} (h : Links a s) (hbasic : Basic net nodes s)
    (hfree : Repairing net s l) (hstep : Step net s l s') (hl : ∀ w, l ≠ .recover w) :
    Links a s' where
  neighbours := fun v hv => h.keep_neighbours hfree hstep hv
  node := by
    intro v hv
    rcases h.keep_node hbasic hstep hl v with ⟨hintact, hmended⟩
    exact (h.node v hv).imp hintact hmended
  port := by
    intro v hv
    rcases h.relinked hstep hl v with hsame | ⟨u, _, _, _, hnode⟩
    · rw [hsame]
      exact h.port v hv
    · rw [hnode]
      exact h.port v hv
  prev := by
    intro v hv
    rcases h.relinked hstep hl v with hsame | ⟨u, _, hu, hcrashed, hnode⟩
    · rw [hsame.prevNodePort]
      refine (h.prev v hv).imp id ?_
      rintro ⟨u, hu, hcrashed, hprev⟩
      exact ⟨u, hu, hstep.down hcrashed, hprev⟩
    · exact Or.inr ⟨u, hu, hstep.down hcrashed, by rw [hnode]; rfl⟩
  suspected := by
    intro v hv
    -- Suspicion begins in this step, or it was there.
    have hbefore : v + 1 < net.size ∧ a.Intact v (s.nodes v) ∧ s.up (v + 1) = false := by
      cases hstep with
      | pingFails w hw _ hport =>
          by_cases hvw : v = w
          · subst hvw
            exact h.suspect hw hport hfree
          · exact h.suspected v (by simpa [hvw] using hv)
      | recover w => exact absurd rfl (hl w)
      | notify w => exact absurd rfl (hl w)
      | _ => exact h.suspected v hv
    exact ⟨hbefore.1, (h.keep_node hbasic hstep hl v).1 hbefore.2.1, hstep.down hbefore.2.2⟩
  commands := fun _ _ hd => h.keep_notice hbasic hfree hstep hl hd

/-! ## Recoveries -/

/-- The chain after `handleNextNodeFailure` of a node, but for its message. -/
def repair (s : Chain) (v : Nat) : Chain :=
  { s.setNode v (s.nodes v).handleNextNodeFailure.1 with
    suspected := Function.update s.suspected v false }

@[simp] theorem repair_nodes (s : Chain) (v : Nat) : (s.repair v).nodes =
    Function.update s.nodes v (s.nodes v).handleNextNodeFailure.1 := rfl
@[simp] theorem repair_up (s : Chain) (v : Nat) : (s.repair v).up = s.up := rfl
@[simp] theorem repair_suspected (s : Chain) (v : Nat) :
    (s.repair v).suspected = Function.update s.suspected v false := rfl
@[simp] theorem repair_conns (s : Chain) (v : Nat) : (s.repair v).conns = s.conns := rfl
@[simp] theorem repair_opened (s : Chain) (v : Nat) : (s.repair v).opened = s.opened := rfl

/-- The connection on which a node tells the one behind the crashed one. -/
def noticeConn (a : Addresses net) (s : Chain) (v : Nat) : Conn :=
  { node := v + 2
    command := a.notice v
    parent := none
    origin := s.opened
    phase := .received
    lost := true }

theorem Links.recover_cases (h : Links a s) (hs : Chain.step net s (.recover v) = some s') :
    v + 1 < net.size ∧ s.up (v + 1) = false ∧ a.Repaired v ((s.repair v).nodes v) ∧
      (v + 2 < net.size ∧ s' = (s.repair v).addConn (noticeConn a s v) ∨
        v + 2 = net.size ∧ s' = s.repair v) := by
  have hguard : s.up v = true ∧ s.suspected v = true := by
    by_contra hguard
    simp only [Chain.step, if_neg hguard] at hs
    cases hs
  rcases h.suspected v hguard.2 with ⟨hv, hintact, hcrashed⟩
  have hsize : v < net.size := Nat.lt_of_succ_lt hv
  refine ⟨hv, hcrashed, ?_⟩
  by_cases hskip : v + 2 < net.size
  · -- There is a node to skip to, and it is up: no two neighbours are down.
    rcases hintact.recover_skip (h.port v hsize) hskip with ⟨hrepaired, hmessage⟩
    have hup : s.up (v + 2) = true := by
      rcases h.neighbours (v + 1) hskip with hup | hup
      · cases hup.symm.trans hcrashed
      · exact hup
    have hnext : (s.repair v).nextUp net v = some (v + 2) := by
      have hresolve : net.resolve ((s.repair v).nodes v).nextNodeIp
          ((s.repair v).nodes v).nextNodePort = some (v + 2) := by
        simp only [repair_nodes, Function.update_self]
        rw [(hrepaired.next hskip).1, (hrepaired.next hskip).2]
        exact a.resolve (v + 2) hskip
      rw [nextUp_of_resolve hresolve hskip]
      exact if_pos hup
    refine ⟨by simpa using hrepaired, Or.inl ⟨hskip, ?_⟩⟩
    simp only [Chain.step, if_pos hguard] at hs
    rw [show (s.nodes v).handleNextNodeFailure =
      ((s.nodes v).handleNextNodeFailure.1, some (a.notice v)) from Prod.ext rfl hmessage] at hs
    have hnext' : nextUp net
        { s.setNode v (s.nodes v).handleNextNodeFailure.1 with
          suspected := Function.update s.suspected v false } v = some (v + 2) := hnext
    simp only [hnext'] at hs
    exact (Option.some.inj hs).symm
  · -- The crashed node was the last one.
    have hlast : v + 2 = net.size := by omega
    rcases hintact.recover_last (h.prev_eq hsize) hlast with ⟨hrepaired, hmessage⟩
    refine ⟨by simpa using hrepaired, Or.inr ⟨hlast, ?_⟩⟩
    simp only [Chain.step, if_pos hguard] at hs
    rw [show (s.nodes v).handleNextNodeFailure =
      ((s.nodes v).handleNextNodeFailure.1, none) from Prod.ext rfl hmessage] at hs
    exact (Option.some.inj hs).symm

/-- What a recovery leaves: the nodes and connections of the repaired chain, and a notice if there
is somebody to tell. -/
structure Recovery (a : Addresses net) (s : Chain) (v : Nat) (s' : Chain) : Prop where
  nodes : s'.nodes = (s.repair v).nodes
  up : s'.up = s.up
  suspected : s'.suspected = (s.repair v).suspected
  keeps : ∀ k d, s.conns k = some d → s'.conns k = some d
  only : ∀ k d, s'.conns k = some d → s.conns k = some d ∨
    v + 2 < net.size ∧ d = noticeConn a s v
  tells : v + 2 < net.size → s'.conns s.opened = some (noticeConn a s v)

theorem Links.recovery {nodes : Nat → MetadataNode} (h : Links a s) (hbasic : Basic net nodes s)
    (hs : Chain.step net s (.recover v) = some s') : Recovery a s v s' := by
  rcases (h.recover_cases hs).2.2.2 with ⟨hskip, rfl⟩ | ⟨hlast, rfl⟩
  · refine ⟨rfl, rfl, rfl, fun k d hd => ?_, fun k d hd => ?_, fun _ => ?_⟩
    · have hk : k ≠ s.opened := (hbasic.opened k d hd).1.ne
      simpa [hk] using hd
    · rcases addConn_conn hd with ⟨_, rfl⟩ | ⟨_, hd⟩
      · exact Or.inr ⟨hskip, rfl⟩
      · exact Or.inl hd
    · exact Function.update_self ..
  · exact ⟨rfl, rfl, rfl, fun _ _ hd => hd, fun _ _ hd => Or.inl hd, fun hskip => by omega⟩

theorem Links.recover {nodes : Nat → MetadataNode} (h : Links a s) (hbasic : Basic net nodes s)
    (hs : Chain.step net s (.recover v) = some s') : Links a s' ∧ Mended a s' v := by
  rcases h.recover_cases hs with ⟨hv, hcrashed, hrepaired, _⟩
  have hrecovery := h.recovery hbasic hs
  -- Only the links of `v` change, and its port and predecessor stay.
  have hother : ∀ w, w ≠ v → s'.nodes w = s.nodes w := by
    intro w hw
    simp [hrecovery.nodes, hw]
  have hkept : ∀ w, (s'.nodes w).myPort = (s.nodes w).myPort ∧
      (s'.nodes w).prevNodePort = (s.nodes w).prevNodePort := by
    intro w
    by_cases hw : w = v
    · subst hw
      simpa [hrecovery.nodes] using Addresses.handleNextNodeFailure_kept (s.nodes w)
    · rw [hother w hw]
      exact ⟨rfl, rfl⟩
  -- Node `v` is mended, and its notice is on the new connection.
  have hself : Mended a s' v := by
    refine ⟨hv, by rw [hrecovery.up]; exact hcrashed, by rw [hrecovery.nodes]; exact hrepaired, ?_⟩
    intro hskip
    exact ⟨s.opened, _, hrecovery.tells hskip, rfl, rfl⟩
  refine ⟨⟨?_, ?_, ?_, ?_, ?_, ?_⟩, hself⟩
  · rw [hrecovery.up]
    exact h.neighbours
  · intro w hw
    by_cases hwv : w = v
    · subst hwv
      exact Or.inr hself
    · refine (h.node w hw).imp (fun hintact => by rwa [hother w hwv]) fun hmended => ?_
      refine ⟨hmended.inside, by rw [hrecovery.up]; exact hmended.crashed,
        by rw [hother w hwv]; exact hmended.repaired, fun hskip => ?_⟩
      rcases hmended.noticed hskip with ⟨k, d, hd, hrest⟩
      exact ⟨k, d, hrecovery.keeps k d hd, hrest⟩
  · intro w hw
    rw [(hkept w).1]
    exact h.port w hw
  · intro w hw
    rw [(hkept w).2, hrecovery.up]
    exact h.prev w hw
  · intro w hsuspected
    have hw : w ≠ v := by
      rintro rfl
      simp [hrecovery.suspected] at hsuspected
    rw [hrecovery.up, hother w hw]
    exact h.suspected w (by simpa [hrecovery.suspected, hw] using hsuspected)
  · intro k d hd
    rcases hrecovery.only k d hd with hd | ⟨hskip, rfl⟩
    · refine (h.commands k d hd).imp id ?_
      rintro ⟨u, hnotice⟩
      exact ⟨u, hnotice.inside, hnotice.node, hnotice.command,
        by rw [hrecovery.up]; exact hnotice.crashed,
        fun hphase => (hkept (u + 2)).2.trans (hnotice.served hphase)⟩
    · exact Or.inr ⟨v, hskip, rfl, rfl, by rw [hrecovery.up]; exact hcrashed,
        fun hphase => absurd rfl hphase⟩

theorem Links.step {nodes : Nat → MetadataNode} (h : Links a s) (hbasic : Basic net nodes s)
    (hfree : Repairing net s l) (hs : Chain.step net s l = some s') : Links a s' := by
  by_cases hl : ∃ w, l = .recover w
  · rcases hl with ⟨w, rfl⟩
    exact (h.recover hbasic hs).1
  · exact h.step_other hbasic hfree (step_cases hs) fun w hw => hl ⟨w, hw⟩

/-- The links after a run, and the nodes that have recovered in it. -/
theorem links_run {tr : List (Chain × Label)}
    (h : Run (Chain.step net) (Repairing net) (launch a.linked) tr s) :
    Links a s ∧ ∀ v, .recover v ∈ tr.map Prod.snd → Mended a s v := by
  induction h with
  | start => exact ⟨links_launch, by simp⟩
  | @step tr s s' l hrun hfree hs ih =>
      rcases ih with ⟨hlinks, hmended⟩
      have hbasic := Basic.run hrun
      refine ⟨hlinks.step hbasic hfree hs, fun v hv => ?_⟩
      simp only [List.map_append, List.map_cons, List.map_nil, List.mem_append,
        List.mem_singleton] at hv
      by_cases hl : ∃ w, l = .recover w
      · rcases hl with ⟨w, rfl⟩
        have hrecovery := hlinks.recovery hbasic hs
        by_cases hvw : v = w
        · subst hvw
          exact (hlinks.recover hbasic hs).2
        · -- Another node recovers.
          have hbefore := hmended v (by simpa [hvw] using hv)
          have hnode : s'.nodes v = s.nodes v := by simp [hrecovery.nodes, hvw]
          exact hbefore.keep hbasic (step_cases hs) (by rw [hnode]; exact hbefore.repaired)
      · have hother : ∀ w, l ≠ .recover w := fun w hw => hl ⟨w, hw⟩
        have hbefore := hmended v (hv.resolve_right fun heq => hother v heq.symm)
        exact (hlinks.keep_node hbasic (step_cases hs) hother v).2 hbefore

end Chain
end Metadata
end Dfs

import Dfs.Metadata.Extension
import Dfs.Metadata.Progress
import Dfs.Metadata.Survival

/-!
# Reads after an acknowledgement

A node that is sent a `PUT` when all nodes before it are down acknowledges it once every live node
behind it has answered it.  Any of these nodes that answers a `GET` from then on answers with the
record, or with one it has stored later.  For that no forward may pass over a live node, and no
live node may lie behind an end of the chain.  With skip links this holds as long as no two
neighbours crash.  Without them it holds as long as nodes crash only at the two ends of what is
left of the chain: where a node in the middle crashes, the one before it becomes a `SINGLE` node
beside the ones behind, and the chain falls into two.
-/

namespace Dfs
namespace Metadata

open Bytes TextScan MetadataNode

namespace Chain

section

variable {net : Network} {nodes : Nat → MetadataNode} {s s' s₁ : Chain} {l : Label}
  {tr tr' : List (Chain × Label)} {id : Nat} {c : Conn}

theorem request_notice_ne_get {node node' : MetadataNode} {message : Bytes}
    (h : node.handleNextNodeFailure = (node', some message)) (filename : Bytes) :
    request message ≠ some (.get filename) := by
  intro hget
  have hdispatch := (request_eq_get node).1 hget
  unfold handleNextNodeFailure at h
  split at h
  · cases h
    rw [dispatch_notice_line] at hdispatch
    unfold reconfigure at hdispatch
    split at hdispatch
    · cases hdispatch
    · split at hdispatch <;> cases hdispatch
  · cases h

/-- A `GET` is sent to a node that is up. -/
theorem Step.up_of_get (h : Step net s l s') (hbasic : Basic net nodes s) {k : Nat} {d : Conn}
    (hd : s'.conns k = some d) {filename : Bytes}
    (hget : request d.command = some (.get filename)) :
    s.up d.node = true ∨
      ∃ d', s.conns k = some d' ∧ d'.node = d.node ∧ d'.command = d.command := by
  rcases h.conn hd with ⟨_, hopens⟩ | ⟨d', hd', hnode, hcommand, _⟩
  · cases hopens with
    | client v command _ =>
        cases h with
        | connect _ _ _ hup _ => exact Or.inl hup
    | forward id c w hc hphase _ =>
        rcases hbasic.active id c hc (by simp [hphase, Phase.Active]) with ⟨r, hr⟩
        cases hget.symm.trans hr
    | notice v node message w _ hnext => exact absurd hget (request_notice_ne_get hnext filename)
  · exact Or.inr ⟨d', hd', hnode.symm, hcommand.symm⟩

/-- So it was up at every earlier time. -/
theorem up_of_get {P P' : Chain → Label → Prop} (h : Run (Chain.step net) P (launch nodes) tr s₁)
    (h' : Run (Chain.step net) P' s₁ tr' s) {g : Nat} {d : Conn} (hd : s.conns g = some d)
    (hnew : s₁.conns g = none) {filename : Bytes}
    (hget : request d.command = some (.get filename)) : s₁.up d.node = true := by
  have hall : ∀ d, s.conns g = some d → request d.command = some (.get filename) →
      s₁.up d.node = true := by
    refine h'.state_invariant (I := fun s => ∀ d, s.conns g = some d →
      request d.command = some (.get filename) → s₁.up d.node = true) ?_ ?_
    · intro d hd
      cases hnew.symm.trans hd
    · intro tr s l s' hrun hI _ hs d hd hget
      have hbasic := Basic.run (h.append hrun)
      rcases (step_cases hs).up_of_get hbasic hd hget with hup | ⟨d', hd', hnode, hcommand⟩
      · exact up_of_up_of_run hrun hup
      · exact hnode ▸ hI d' hd' (hcommand ▸ hget)
  exact hall d hd hget

/-- What a `PUT` has left at a node when a `GET` is sent there, the answer shows, unless it
redirects. -/
theorem reads_after_stored {P P' : Chain → Label → Prop}
    (h : Run (Chain.step net) P (launch nodes) tr s₁) (h' : Run (Chain.step net) P' s₁ tr' s)
    {v origin : Nat} {r : FileMetadata} (hstored : ⟨v, origin, r⟩ ∈ s₁.log) {g : Nat}
    {reply : Bytes} (hnew : s₁.conns g = none) (hread : s.ReadAt g v r.filename reply) :
    reply = ascii "REDIRECT_TO_TAIL" ∨
      ∃ e ∈ s.log, NoEarlier s.log ⟨v, origin, r⟩ e ∧ reply = foundMessage e.record := by
  have hreads : Reads s₁ v r.filename (fun reply => reply = ascii "REDIRECT_TO_TAIL" ∨
      ∃ e ∈ s.log, NoEarlier s.log ⟨v, origin, r⟩ e ∧ reply = foundMessage e.record) s := by
    refine h'.state_invariant (I := fun s => Reads s₁ v r.filename (fun reply =>
      reply = ascii "REDIRECT_TO_TAIL" ∨
        ∃ e ∈ s.log, NoEarlier s.log ⟨v, origin, r⟩ e ∧ reply = foundMessage e.record) s) ?_ ?_
    · intro g d hd hnone
      cases hd.symm.trans hnone
    · intro tr s l s' hrun hI _ hs
      have hbasic := Basic.run (h.append hrun)
      have hstep := step_cases hs
      have hlog := hstep.log_sublist
      rcases hbasic.holds ((log_sublist_of_run hrun).subset hstored) with
        ⟨e, he, hlater, hholds⟩
      refine hI.step_of hstep (fun _ => Or.inl rfl) ?_ ?_
      · exact Or.inr ⟨e, hlog.subset he, hlater.mono hlog, by rw [hholds]; rfl⟩
      · rintro reply (hredirect | ⟨e, he, hlater, hreply⟩)
        · exact Or.inl hredirect
        · exact Or.inr ⟨e, hlog.subset he, hlater.mono hlog, hreply⟩
  exact hreads.readAt hnew hread

/-- A `PUT` that was acknowledged by the first live node is seen by every `GET` sent afterwards. -/
theorem reads_after_ack {P P' : Chain → Label → Prop}
    (h : Run (Chain.step net) P (launch nodes) tr s₁) (h' : Run (Chain.step net) P' s₁ tr' s)
    (hacked : Acknowledged (fun _ => True) net.size (fun w => s₁.up w = true) s₁)
    (hc : s₁.conns id = some c) {r : FileMetadata} (hr : request c.command = some (.put r))
    (hack : c.phase = .replied (ascii "ACK")) (hfirst : ∀ w < c.node, s₁.up w = false)
    {g v : Nat} {reply : Bytes} (hnew : s₁.conns g = none)
    (hread : s.ReadAt g v r.filename reply) :
    reply = ascii "REDIRECT_TO_TAIL" ∨
      ∃ e ∈ s.log, NoEarlier s.log ⟨v, c.origin, r⟩ e ∧ reply = foundMessage e.record := by
  rcases hread with ⟨d, hd, rfl, hget, hphase⟩
  have hup := up_of_get h h' hd hnew hget
  -- The node was up, so it is not before the first live one.
  have hnode : c.node ≤ d.node := by
    by_contra hlt
    cases hup.symm.trans (hfirst d.node (not_le.1 hlt))
  have hsize : d.node < net.size := ((Basic.run (h.append h')).opened g d hd).2
  have hanswered := hacked.acked id c r hc hr hack trivial d.node hnode hsize hup
  exact reads_after_stored h h' (hanswered.logged (Basic.run h) hr) hnew
    ⟨d, hd, rfl, hget, hphase⟩

end

/-! ## Chains without skip links -/

/-- Nobody sends a reconfiguration command. -/
def Unassisted (_ : Chain) : Label → Prop
  | .connect _ command => IsRequest command
  | _ => True

instance (s : Chain) (l : Label) : Decidable (Unassisted s l) :=
  match l with
  | .connect _ command => inferInstanceAs (Decidable (IsRequest command))
  | .serve _ => inferInstanceAs (Decidable True)
  | .take _ => inferInstanceAs (Decidable True)
  | .refuse _ => inferInstanceAs (Decidable True)
  | .lose _ => inferInstanceAs (Decidable True)
  | .crash _ => inferInstanceAs (Decidable True)
  | .pingFails _ => inferInstanceAs (Decidable True)
  | .recover _ => inferInstanceAs (Decidable True)

/-- A node that has given up its next one and answers on its own. -/
structure EndOfChain (node : MetadataNode) : Prop where
  mustForward : node.mustForward = false
  servesReads : node.servesReads = true
  nextIp : node.nextNodeIp = []
  nextPort : node.nextNodePort = -1

theorem endOfChain_congr {node node' : MetadataNode} (hsame : SameLinks node node') :
    EndOfChain node' ↔ EndOfChain node := by
  constructor
  · intro h
    exact ⟨hsame.mustForward.symm.trans h.mustForward, hsame.servesReads.symm.trans h.servesReads,
      hsame.nextNodeIp.symm.trans h.nextIp, hsame.nextNodePort.symm.trans h.nextPort⟩
  · intro h
    exact ⟨hsame.mustForward.trans h.mustForward, hsame.servesReads.trans h.servesReads,
      hsame.nextNodeIp.trans h.nextIp, hsame.nextNodePort.trans h.nextPort⟩

/-- The nodes know at most the node that they have been started with. -/
structure Bare (a : Addresses net) (s : Chain) : Prop where
  node : ∀ v < net.size, SameLinks (a.launched v) (s.nodes v) ∨ EndOfChain (s.nodes v)
  skip : ∀ v < net.size, (s.nodes v).skipToPort = -1 ∧ (s.nodes v).prevNodePort = -1
  suspected : ∀ v, s.suspected v = true → v < net.size
  requests : ∀ id c, s.conns id = some c → IsRequest c.command

section

variable {net : Network} {a : Addresses net} {s s' s₁ : Chain} {l : Label} {v : Nat}
  {tr tr' : List (Chain × Label)} {id : Nat} {c : Conn}

theorem launched_unlinked (v : Nat) :
    (a.launched v).skipToPort = -1 ∧ (a.launched v).prevNodePort = -1 := by
  unfold Addresses.launched
  split <;> exact ⟨rfl, rfl⟩

/-- A node before the last one forwards to the next. -/
theorem launched_inner (hv : v + 1 < net.size) :
    (a.launched v).mustForward = true ∧ (a.launched v).nextNodeIp = a.ip (v + 1) ∧
      (a.launched v).nextNodePort = a.port (v + 1) := by
  have hnode : a.launched v = MetadataNode.launch (a.ip (v + 1)) (a.port (v + 1)) (a.port v) :=
    if_pos hv
  have hport := Addresses.port_ne (a := a) hv
  rw [hnode]
  exact ⟨by simp [mustForward, MetadataNode.launch, hport], rfl, rfl⟩

theorem launched_last (hv : ¬ v + 1 < net.size) : EndOfChain (a.launched v) := by
  have hnode : a.launched v = MetadataNode.launch [] (-1) (a.port v) := if_neg hv
  rw [hnode]
  exact ⟨rfl, rfl, rfl, rfl⟩

theorem bare_launch : Bare a (launch a.launched) where
  node := fun v _ => Or.inl (SameLinks.refl (a.launched v))
  skip := fun v _ => launched_unlinked v
  suspected := by simp [launch]
  requests := by simp [launch]

/-- A node has its next node behind it, or ends the chain. -/
theorem Bare.cases (h : Bare a s) (hv : v < net.size) :
    (v + 1 < net.size ∧ (s.nodes v).mustForward = true ∧
      net.resolve (s.nodes v).nextNodeIp (s.nodes v).nextNodePort = some (v + 1) ∧
      (s.nodes v).nextNodePort ≠ -1) ∨ EndOfChain (s.nodes v) := by
  rcases h.node v hv with hsame | hend
  · by_cases hinside : v + 1 < net.size
    · rcases launched_inner (a := a) hinside with ⟨hmust, hip, hport⟩
      refine Or.inl ⟨hinside, hsame.mustForward.trans hmust, ?_, ?_⟩
      · rw [hsame.nextNodeIp, hsame.nextNodePort, hip, hport, a.resolve (v + 1) hinside]
      · rw [hsame.nextNodePort, hport]
        exact Addresses.port_ne hinside
    · exact Or.inr ((endOfChain_congr hsame).2 (launched_last hinside))
  · exact Or.inr hend

/-- Whatever is reached by a forward is the node behind. -/
theorem Bare.nextUp_eq (h : Bare a s) (hv : v < net.size) {x : Nat}
    (hx : s.nextUp net v = some x) : x = v + 1 := by
  have hresolve := (nextUp_eq_some hx).1
  rcases h.cases hv with ⟨_, _, hnext, _⟩ | hend
  · exact Option.some.inj (hresolve.symm.trans hnext)
  · rw [hend.nextIp, hend.nextPort, a.unset] at hresolve
    cases hresolve

/-- Without a skip link and a node before it, a node that recovers is on its own. -/
theorem recover_unlinked {node : MetadataNode} (hskip : node.skipToPort = -1)
    (hprev : node.prevNodePort = -1) :
    node.handleNextNodeFailure =
      ({ node with nextNodeIp := [], nextNodePort := -1, role := .single }, none) := by
  simp [handleNextNodeFailure, hskip, hprev]

/-- Nobody but the health check changes a link. -/
theorem Bare.relinked (h : Bare a s) (hstep : Step net s l s') (hl : l ≠ .recover v) :
    SameLinks (s.nodes v) (s'.nodes v) := by
  have hrelinks := hstep.relinks v
  generalize s'.nodes v = node at hrelinks ⊢
  cases hrelinks with
  | keep _ _ hsame => exact hsame
  | respond id c _ reply hc _ hdispatch =>
      exact absurd hdispatch (not_respond_of_isRequest (h.requests id c hc) _ _ _)
  | recover _ => exact absurd rfl hl

theorem Bare.recovered (h : Bare a s) (hstep : Step net s (.recover v) s') :
    EndOfChain (s'.nodes v) ∧ ((s'.nodes v).skipToPort = -1 ∧ (s'.nodes v).prevNodePort = -1) ∧
      s.up v = true ∧ s.suspected v = true ∧ s'.suspected v = false := by
  cases hstep with
  | recover _ node message hup hsuspected hnext =>
      have hskip := h.skip v (h.suspected v hsuspected)
      cases (recover_unlinked hskip.1 hskip.2).symm.trans hnext
      refine ⟨⟨?_, ?_, ?_, ?_⟩, ?_, hup, hsuspected, ?_⟩
      · simp [mustForward]
      · simp [servesReads]
      · simp
      · simp
      · simpa using hskip
      · simp
  | notify _ node message w hup hsuspected hnext _ =>
      have hskip := h.skip v (h.suspected v hsuspected)
      cases (recover_unlinked hskip.1 hskip.2).symm.trans hnext

theorem Bare.step {nodes : Nat → MetadataNode} (h : Bare a s) (hbasic : Basic net nodes s)
    (hP : Unassisted s l) (hstep : Step net s l s') : Bare a s' where
  node := by
    intro v hv
    by_cases hl : l = .recover v
    · subst hl
      exact Or.inr (h.recovered hstep).1
    · have hsame := h.relinked hstep hl
      exact (h.node v hv).imp (fun hold => hold.trans hsame) (endOfChain_congr hsame).2
  skip := by
    intro v hv
    by_cases hl : l = .recover v
    · subst hl
      exact (h.recovered hstep).2.1
    · rw [h.relinked hstep hl]
      exact h.skip v hv
  suspected := by
    intro v hsuspected
    by_cases hbefore : s.suspected v = true
    · exact h.suspected v hbefore
    · -- Suspicion begins in this step.
      cases hstep with
      | pingFails w hw _ _ =>
          by_cases hvw : v = w
          · exact hvw ▸ hw
          · exact absurd (by simpa [hvw] using hsuspected) hbefore
      | recover w =>
          by_cases hvw : v = w
          · simp [hvw] at hsuspected
          · exact absurd (by simpa [hvw] using hsuspected) hbefore
      | notify w =>
          by_cases hvw : v = w
          · simp [hvw] at hsuspected
          · exact absurd (by simpa [hvw] using hsuspected) hbefore
      | _ => exact absurd hsuspected hbefore
  requests := by
    intro k d hd
    have hcommand : IsRequest d.command ∨ False := by
      refine hstep.command hbasic (P := fun _ => False) (fun id c hc => Or.inl (h.requests id c hc))
        (fun _ _ _ _ hfalse => hfalse) ?_ hd
      intro c hopens _
      cases hopens with
      | client v command _ => exact Or.inl hP
      | forward id c w hc _ _ => exact Or.inl (h.requests id c hc)
      | notice v node message w hsuspected hnext =>
          have hskip := h.skip v (h.suspected v hsuspected)
          cases (recover_unlinked hskip.1 hskip.2).symm.trans hnext
    exact hcommand.resolve_right id

theorem bare_run (h : Run (Chain.step net) Unassisted (launch a.launched) tr s) : Bare a s :=
  h.state_invariant bare_launch fun _ _ _ _ hrun hI hP hs =>
    hI.step (Basic.run hrun) hP (step_cases hs)

end

/-! ## Crashes at the ends -/

/-- Requests of clients, crashes of the first or the last live node, and health checks, whose pings
fail when nobody is reached at the next address. -/
def Shrinking (net : Network) (s : Chain) : Label → Prop
  | .connect _ command => IsRequest command
  | .crash v => (∀ w < v, s.up w = false) ∨ ∀ w < net.size, v < w → s.up w = false
  | .pingFails v => s.nextUp net v = none
  | _ => True

instance (net : Network) (s : Chain) (l : Label) : Decidable (Shrinking net s l) :=
  match l with
  | .connect _ command => inferInstanceAs (Decidable (IsRequest command))
  | .crash v => inferInstanceAs (Decidable
      ((∀ w < v, s.up w = false) ∨ ∀ w < net.size, v < w → s.up w = false))
  | .pingFails v => inferInstanceAs (Decidable (s.nextUp net v = none))
  | .serve _ => inferInstanceAs (Decidable True)
  | .take _ => inferInstanceAs (Decidable True)
  | .refuse _ => inferInstanceAs (Decidable True)
  | .lose _ => inferInstanceAs (Decidable True)
  | .recover _ => inferInstanceAs (Decidable True)

theorem shrinking_unassisted (net : Network) (s : Chain) (l : Label) (h : Shrinking net s l) :
    Unassisted s l := by
  cases l with
  | connect v command => exact h
  | _ => trivial

/-- The live nodes follow each other, and none is behind a node that ends the chain. -/
structure Shrunk (net : Network) (s : Chain) : Prop where
  interval : ∀ u v w, u < v → v < w → w < net.size → s.up v = false →
    s.up u = false ∨ s.up w = false
  suspected : ∀ v, s.suspected v = true → s.up (v + 1) = false
  behind : ∀ v, EndOfChain (s.nodes v) → ∀ w < net.size, v < w → s.up w = false

section

variable {net : Network} {a : Addresses net} {s s' s₁ : Chain} {l : Label} {v : Nat}
  {tr tr' : List (Chain × Label)} {id : Nat} {c : Conn}

/-- Behind a live node whose next node has crashed, no node is live. -/
theorem Shrunk.down_behind (h : Shrunk net s) (hup : s.up v = true) (hdown : s.up (v + 1) = false)
    (w : Nat) (hw : w < net.size) (hvw : v < w) : s.up w = false := by
  rcases Nat.eq_or_lt_of_le (Nat.succ_le_of_lt hvw) with rfl | hlt
  · exact hdown
  · rcases h.interval v (v + 1) w (Nat.lt_succ_self v) hlt hw hdown with hv | hw'
    · cases hup.symm.trans hv
    · exact hw'

theorem shrunk_launch : Shrunk net (launch a.launched) where
  interval := by simp [launch]
  suspected := by simp [launch]
  behind := by
    intro v hend w hw hvw
    have hforward := (launched_inner (a := a) (show v + 1 < net.size by omega)).1
    cases hforward.symm.trans hend.mustForward

/-- A ping fails only where the next node has crashed. -/
theorem Bare.suspects (h : Bare a s) (hv : v < net.size) (hport : (s.nodes v).nextNodePort ≠ -1)
    (hnone : s.nextUp net v = none) : s.up (v + 1) = false := by
  rcases h.cases hv with ⟨hinside, _, hresolve, _⟩ | hend
  · rw [nextUp_of_resolve hresolve hinside] at hnone
    simpa using hnone
  · exact absurd hend.nextPort hport

theorem Shrunk.step (h : Shrunk net s) (hbare : Bare a s) (hP : Shrinking net s l)
    (hstep : Step net s l s') : Shrunk net s' where
  interval := by
    intro u v w huv hvw hw hdown
    cases hup : s.up v with
    | false => exact (h.interval u v w huv hvw hw hup).imp hstep.down hstep.down
    | true =>
        -- Node `v` crashes in this step, at an end.
        have hend : (∀ w < v, s.up w = false) ∨ ∀ w < net.size, v < w → s.up w = false := by
          cases hstep with
          | crash x _ =>
              by_cases hvx : v = x
              · subst hvx
                exact hP
              · simp [hvx, hup] at hdown
          | _ => cases hup.symm.trans hdown
        rcases hend with hbefore | hbehind
        · exact Or.inl (hstep.down (hbefore u huv))
        · exact Or.inr (hstep.down (hbehind w hw hvw))
  suspected := by
    intro v hsuspected
    -- Suspicion begins in this step, or it was there.
    have hbefore : s.up (v + 1) = false := by
      cases hstep with
      | pingFails w hw _ hport =>
          by_cases hvw : v = w
          · subst hvw
            exact hbare.suspects hw hport hP
          · exact h.suspected v (by simpa [hvw] using hsuspected)
      | recover w =>
          by_cases hvw : v = w
          · simp [hvw] at hsuspected
          · exact h.suspected v (by simpa [hvw] using hsuspected)
      | notify w =>
          by_cases hvw : v = w
          · simp [hvw] at hsuspected
          · exact h.suspected v (by simpa [hvw] using hsuspected)
      | _ => exact h.suspected v hsuspected
    exact hstep.down hbefore
  behind := by
    intro v hend w hw hvw
    by_cases hl : l = .recover v
    · subst hl
      rcases hbare.recovered hstep with ⟨_, _, hup, hsuspected, _⟩
      exact hstep.down (h.down_behind hup (h.suspected v hsuspected) w hw hvw)
    · exact hstep.down (h.behind v ((endOfChain_congr (hbare.relinked hstep hl)).1 hend) w hw hvw)

theorem shrunk_run (h : Run (Chain.step net) (Shrinking net) (launch a.launched) tr s) :
    Shrunk net s := by
  refine h.state_invariant (I := Shrunk net) shrunk_launch ?_
  intro tr s l s' hrun hshrunk hP hs
  exact hshrunk.step (bare_run (hrun.mono (shrinking_unassisted net))) hP (step_cases hs)

/-- What a node has acknowledged has been answered at every live node from it on. -/
theorem acknowledged_shrunk (h : Run (Chain.step net) (Shrinking net) (launch a.launched) tr s) :
    Acknowledged (fun _ => True) net.size (fun w => s.up w = true) s := by
  refine h.state_invariant
    (I := fun s => Acknowledged (fun _ => True) net.size (fun w => s.up w = true) s)
    acknowledged_launch ?_
  intro tr s l s' hrun hack _ hs
  have hbasic := Basic.run hrun
  have hbare := bare_run (hrun.mono (shrinking_unassisted net))
  have hstep := step_cases hs
  have hkept : Acknowledged (fun _ => True) net.size (fun w => s.up w = true) s' := by
    refine hack.step hbasic hstep ?_ ?_
    · intro id c hc _ hmust _ w hvw hw hup
      -- Behind a node that answers without forwarding nobody is live.
      rcases hbare.cases (hbasic.opened id c hc).2 with ⟨_, hforward, _⟩ | hend
      · cases hforward.symm.trans hmust
      · cases hup.symm.trans ((shrunk_run hrun).behind c.node hend w hw hvw)
    · intro id c x hc _ hx _ w hvw _ _
      -- A forward goes to the next node, so none is passed over.
      have hnext := hbare.nextUp_eq (hbasic.opened id c hc).2 hx
      omega
  exact hkept.mono fun w hup => hstep.up_of_up hup

/-- The last live node serves reads, or does so after its next round of the health check. -/
theorem last_serves (h : Run (Chain.step net) (Shrinking net) (launch a.launched) tr s)
    (hv : v < net.size) (hup : s.up v = true) (hlast : ∀ w < net.size, v < w → s.up w = false) :
    (s.nodes v).servesReads = true ∨
      ∃ tr' s', Run (Chain.step net) (Shrinking net) s tr' s' ∧
        tr'.map Prod.snd = [.pingFails v, .recover v] ∧ (s'.nodes v).servesReads = true := by
  have hbare := bare_run (h.mono (shrinking_unassisted net))
  rcases hbare.cases hv with ⟨hinside, _, hresolve, hport⟩ | hend
  · have hnone : s.nextUp net v = none := by
      rw [nextUp_of_resolve hresolve hinside, hlast (v + 1) hinside (Nat.lt_succ_self v)]
      rfl
    have hskip := hbare.skip v hv
    -- A failed ping and the recovery behind it make the node the end of the chain.
    have hping : Chain.step net s (.pingFails v) =
        some { s with suspected := Function.update s.suspected v true } := by
      simp only [Chain.step]
      rw [if_pos ⟨hv, hup, hport⟩]
    have hrecover : ∃ s', Chain.step net
        { s with suspected := Function.update s.suspected v true } (.recover v) = some s' := by
      simp [Chain.step, hup, recover_unlinked hskip.1 hskip.2]
    rcases hrecover with ⟨s', hs'⟩
    have hsuspects : Run (Chain.step net) (Shrinking net) s [(s, Label.pingFails v)]
        { s with suspected := Function.update s.suspected v true } :=
      Run.start.step hnone hping
    refine Or.inr ⟨_, s', hsuspects.next (.recover v) s' trivial hs', by simp, ?_⟩
    have hbare' := bare_run ((h.trans hsuspects).mono (shrinking_unassisted net))
    exact (hbare'.recovered (step_cases hs')).1.servesReads
  · exact Or.inl hend.servesReads

/-- Without skip links, and with crashes at the ends: a `GET` that is sent after the first live node
has acknowledged a `PUT` is redirected or answered with the record or one stored later, never with
an older one and never with `NOT_FOUND`; and the last live node answers it, at the latest after its
next round of the health check. -/
theorem acknowledged_seen_at_ends {s₁ : Chain}
    (h : Run (Chain.step net) (Shrinking net) (launch a.launched) tr s₁)
    (h' : Run (Chain.step net) (Shrinking net) s₁ tr' s) :
    (∀ id c r g v reply, s₁.conns id = some c → request c.command = some (.put r) →
      c.phase = .replied (ascii "ACK") → (∀ w < c.node, s₁.up w = false) →
      s₁.conns g = none → s.ReadAt g v r.filename reply →
      reply = ascii "REDIRECT_TO_TAIL" ∨
        ∃ e ∈ s.log, NoEarlier s.log ⟨v, c.origin, r⟩ e ∧ reply = foundMessage e.record) ∧
    ∀ v < net.size, s.up v = true → (∀ w < net.size, v < w → s.up w = false) →
      (s.nodes v).servesReads = true ∨
        ∃ tr'' s', Run (Chain.step net) (Shrinking net) s tr'' s' ∧
          tr''.map Prod.snd = [.pingFails v, .recover v] ∧ (s'.nodes v).servesReads = true := by
  refine ⟨?_, ?_⟩
  · intro id c r g v reply hc hr hack hfirst hnew hread
    exact reads_after_ack h h' (acknowledged_shrunk h) hc hr hack hfirst hnew hread
  · intro v hv hup hlast
    exact last_serves (h.trans h') hv hup hlast

end

/-! ## A crash in the middle -/

section

variable {net : Network} {a : Addresses net} {s s' s₁ : Chain} {l : Label} {v : Nat}
  {tr tr' : List (Chain × Label)} {id : Nat} {c : Conn}

/-- The connections of a request that enters before a crashed node stay before it. -/
theorem stays_before (h : Run (Chain.step net) Unassisted (launch a.launched) tr s₁)
    (hdown : s₁.up v = false) (h' : Run (Chain.step net) Unassisted s₁ tr' s)
    (hnew : s₁.conns id = none) :
    ∀ c, s.conns id = some c → c.node < v → ∀ k d, s.conns k = some d → d.origin = id →
      d.node < v := by
  refine h'.state_invariant (I := fun s => ∀ c, s.conns id = some c → c.node < v →
    ∀ k d, s.conns k = some d → d.origin = id → d.node < v) ?_ ?_
  · intro c hc
    cases hnew.symm.trans hc
  · intro tr s l s' hrun hI _ hs c hc hbefore k d hd horigin
    have hbasic := Basic.run (h.trans hrun)
    have hstep := step_cases hs
    -- An older connection of the request stands before `v`, as the client's own one does.
    have hold : ∀ j d', s.conns j = some d' → d'.origin = id → d'.node < v := by
      intro j d' hd' horigin'
      rcases hbasic.root j d' hd' with ⟨cr, hcr, _⟩
      rw [horigin'] at hcr
      rcases hstep.persist hbasic id cr hcr with ⟨_, _, hcr'⟩
      cases hcr'.symm.trans hc
      exact hI cr hcr hbefore j d' hd' horigin'
    rcases hstep.conn_cases hd with hnewer | ⟨d', hd', hkept⟩
    · have hk := hnewer.id
      cases hnewer.opens with
      | client w command _ =>
          cases (hk.trans horigin ▸ hd).symm.trans hc
          exact hbefore
      | forward p c' w hc' _ hw =>
          -- The next node is up, so it is not `v`.
          have hnode := (bare_run (h.trans hrun)).nextUp_eq (hbasic.opened p c' hc').2 hw
          have hlt := hold p c' hc' horigin
          have hne : w ≠ v := by
            rintro rfl
            cases (up_of_up_of_run hrun (nextUp_eq_some hw).2.2).symm.trans hdown
          simp only [forwardConn]
          omega
      | notice u node message w _ _ =>
          cases (hk.trans horigin ▸ hd).symm.trans hc
          exact hbefore
    · rw [hkept.node]
      exact hold k d' hd' (hkept.origin ▸ horigin)

/-- Whatever a node answers a `GET` with has been stored there. -/
theorem reads_stored {nodes : Nat → MetadataNode} {P : Chain → Label → Prop}
    (hempty : ∀ w, (nodes w).metadataStore = fun _ => none)
    (h : Run (Chain.step net) P (launch nodes) tr s) {g w : Nat} {filename reply : Bytes}
    (hread : s.ReadAt g w filename reply) :
    reply = ascii "REDIRECT_TO_TAIL" ∨ reply = ascii "NOT_FOUND" ∨
      ∃ e ∈ s.log, e.node = w ∧ reply = foundMessage e.record := by
  have hreads : Reads (launch nodes) w filename (fun reply =>
      reply = ascii "REDIRECT_TO_TAIL" ∨ reply = ascii "NOT_FOUND" ∨
        ∃ e ∈ s.log, e.node = w ∧ reply = foundMessage e.record) s := by
    refine h.state_invariant (I := fun s => Reads (launch nodes) w filename (fun reply =>
      reply = ascii "REDIRECT_TO_TAIL" ∨ reply = ascii "NOT_FOUND" ∨
        ∃ e ∈ s.log, e.node = w ∧ reply = foundMessage e.record) s) (by simp [Reads, launch]) ?_
    intro tr s l s' hrun hI _ hs
    have hbasic := Basic.run hrun
    have hlog := (step_cases hs).log_sublist.subset
    refine hI.step_of (step_cases hs) (fun _ => Or.inl rfl) ?_ ?_
    · refine Or.inr ?_
      rw [hbasic.store, storedAt]
      cases hlast : lastWrite s.log w filename with
      | none => simp [hempty w, lookupMessage]
      | some e =>
          have he := lastWrite_eq_some hlast
          exact Or.inr ⟨e, hlog he.1, he.2.1, rfl⟩
    · rintro reply (hredirect | hnone | ⟨e, he, hnode, hreply⟩)
      · exact Or.inl hredirect
      · exact Or.inr (Or.inl hnone)
      · exact Or.inr (Or.inr ⟨e, hlog he, hnode, hreply⟩)
  exact hreads.readAt rfl hread

/-- Without skip links a crash in the middle splits the chain.  The last node goes on serving reads,
and what is put in front of the crashed node afterwards, also if it is acknowledged, is never stored
behind it and never in an answer from there. -/
theorem split_chain (h : Run (Chain.step net) Unassisted (launch a.launched) tr s₁)
    (hdown : s₁.up v = false) (hv : v + 1 < net.size)
    (h' : Run (Chain.step net) Unassisted s₁ tr' s) (hnew : s₁.conns id = none)
    (hc : s.conns id = some c) (hbefore : c.node < v) :
    (s.nodes (net.size - 1)).servesReads = true ∧
      (∀ e ∈ s.log, e.origin = id → e.node < v) ∧
      ∀ g w filename reply, s.ReadAt g w filename reply → v < w →
        reply = ascii "REDIRECT_TO_TAIL" ∨ reply = ascii "NOT_FOUND" ∨
          ∃ e ∈ s.log, e.node = w ∧ e.origin ≠ id ∧ reply = foundMessage e.record := by
  have hall := h.trans h'
  have hstays : ∀ e ∈ s.log, e.origin = id → e.node < v := by
    intro e he horigin
    rcases (Basic.run hall).source e he with ⟨k, d, hd, hnode, horigin', _⟩
    exact hnode ▸ stays_before h hdown h' hnew c hc hbefore k d hd (horigin'.trans horigin)
  refine ⟨?_, hstays, ?_⟩
  · rcases (bare_run hall).cases (show net.size - 1 < net.size by omega) with
      ⟨hinside, _⟩ | hend
    · omega
    · exact hend.servesReads
  · intro g w filename reply hread hvw
    have hempty : ∀ w, (a.launched w).metadataStore = fun _ => none := by
      intro w
      unfold Addresses.launched
      split <;> rfl
    rcases reads_stored hempty hall hread with hredirect | hnone | ⟨e, he, hnode, hreply⟩
    · exact Or.inl hredirect
    · exact Or.inr (Or.inl hnone)
    · refine Or.inr (Or.inr ⟨e, he, hnode, fun horigin => ?_, hreply⟩)
      have hlt := hstays e he horigin
      omega

end

/-! ## Three nodes -/

/-- A `PUT` is acknowledged, the last node crashes, and the one before it recovers and is asked. -/
def lastCrashes : List Label :=
  [.connect 0 (ascii "PUT a 1 2 3 r x"), .serve 0, .serve 0, .serve 0, .serve 1, .serve 1, .serve 1,
    .serve 2, .serve 2, .serve 1, .serve 0]

def lastRecovers : List Label :=
  [.crash 2, .pingFails 1, .recover 1, .connect 1 (ascii "GET a"), .serve 3, .serve 3]

def lastAcked : List (Chain × Label) × Chain :=
  Run.replayed (Chain.step (localNet 3)) (launch (localAddresses 3 (by decide)).launched)
    lastCrashes

def lastRead : List (Chain × Label) × Chain :=
  Run.replayed (Chain.step (localNet 3)) lastAcked.2 lastRecovers

theorem acknowledged_seen_at_ends_three :
    (∃ e ∈ lastRead.2.log,
      NoEarlier lastRead.2.log ⟨1, 0, ⟨ascii "a", ascii "r", 1, 2, 3, [ascii "x"]⟩⟩ e ∧
        ascii "FOUND 1 2 3 r x" = foundMessage e.record) ∧
      ((lastRead.2.nodes 1).servesReads = true ∨ ∃ tr s', Run (Chain.step (localNet 3))
        (Shrinking (localNet 3)) lastRead.2 tr s' ∧
          tr.map Prod.snd = [.pingFails 1, .recover 1] ∧ (s'.nodes 1).servesReads = true) := by
  have hacked : Run (Chain.step (localNet 3)) (Shrinking (localNet 3))
      (launch (localAddresses 3 (by decide)).launched) lastAcked.1 lastAcked.2 :=
    Run.of_replayed (by decide +kernel) (by decide +kernel)
  have hread : Run (Chain.step (localNet 3)) (Shrinking (localNet 3)) lastAcked.2
      lastRead.1 lastRead.2 :=
    Run.of_replayed (by decide +kernel) (by decide +kernel)
  have hc : lastAcked.2.conns 0 =
      some ⟨0, ascii "PUT a 1 2 3 r x", none, 0, .replied (ascii "ACK"), false⟩ := by
    decide +kernel
  have hanswer : lastRead.2.ReadAt 3 1 (ascii "a") (ascii "FOUND 1 2 3 r x") :=
    ⟨⟨1, ascii "GET a", none, 3, .replied (ascii "FOUND 1 2 3 r x"), false⟩, by decide +kernel, rfl,
      by decide +kernel, rfl⟩
  have hseen := acknowledged_seen_at_ends hacked hread
  refine ⟨?_, hseen.2 1 (by decide) (by decide +kernel) (by decide +kernel)⟩
  rcases hseen.1 0 _ ⟨ascii "a", ascii "r", 1, 2, 3, [ascii "x"]⟩ 3 1 _ hc (by decide +kernel) rfl
    (by decide) (by decide +kernel) hanswer with hredirect | hfound
  · exact absurd hredirect (by decide)
  · exact hfound

/-- The node in the middle crashes, the first one recovers and acknowledges, and the last one, which
the client asks first, finds nothing. -/
def middleCrashes : List Label :=
  [.crash 1, .pingFails 0, .recover 0]

def hiddenPut : List Label :=
  [.connect 0 (ascii "PUT a 1 2 3 r x"), .serve 0, .serve 0, .connect 2 (ascii "GET a"), .serve 1,
    .serve 1]

theorem split_chain_three :
    let nodes := (localAddresses 3 (by decide)).launched
    let crashed := Run.replayed (Chain.step (localNet 3)) (launch nodes) middleCrashes
    let read := Run.replayed (Chain.step (localNet 3)) crashed.2 hiddenPut
    (read.2.conns 0).map Conn.phase = some (.replied (ascii "ACK")) ∧
      read.2.ReadAt 1 2 (ascii "a") (ascii "NOT_FOUND") ∧
      (read.2.nodes 2).servesReads = true ∧ ∀ e ∈ read.2.log, e.origin = 0 → e.node < 1 := by
  intro nodes crashed read
  have hcrashed : Run (Chain.step (localNet 3)) Unassisted (launch nodes) crashed.1 crashed.2 :=
    Run.of_replayed (by decide +kernel) (by decide +kernel)
  have hread : Run (Chain.step (localNet 3)) Unassisted crashed.2 read.1 read.2 :=
    Run.of_replayed (by decide +kernel) (by decide +kernel)
  have hc : read.2.conns 0 =
      some ⟨0, ascii "PUT a 1 2 3 r x", none, 0, .replied (ascii "ACK"), false⟩ := by
    decide +kernel
  have hsplit := split_chain hcrashed (show crashed.2.up 1 = false by decide +kernel) (by decide)
    hread (by decide +kernel) hc (by decide)
  refine ⟨by rw [hc]; rfl, ?_, hsplit.1, hsplit.2.1⟩
  exact ⟨⟨2, ascii "GET a", none, 1, .replied (ascii "NOT_FOUND"), false⟩, by decide +kernel, rfl,
    by decide +kernel, rfl⟩

end Chain
end Metadata
end Dfs

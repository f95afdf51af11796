import Dfs.Metadata.Reconfiguration
import Mathlib.Algebra.BigOperators.Group.Finset.Basic

/-!
# Progress of the handlers

A forward waits without a time limit, so it has to be asked whether the handlers come to rest and
what they then still wait for.  Each connection has an amount of work ahead of it (`Conn.work`),
which counts the nodes behind its own.  As long as every link leads to a node with a higher number,
every step of a handler lowers the sum, also across crashes and recoveries.  When no handler can
step, whoever waits does so, over one forward or more, for a crashed node.
-/

namespace Dfs
namespace Metadata

open Bytes TextScan MetadataNode

/-- The links of node `v`, also the one it would skip to, lead to nodes with higher numbers. -/
structure Upward (net : Network) (v : Nat) (node : MetadataNode) : Prop where
  next : ∀ w, net.resolve node.nextNodeIp node.nextNodePort = some w → v < w
  skip : ∀ w, net.resolve node.skipToIp node.skipToPort = some w → v < w

/-- A command that cannot turn the links of a node back. -/
def KeepsUpward (net : Network) (v : Nat) (command : Bytes) : Prop :=
  ∀ node node' reply, node.dispatch command = .respond node' reply →
    Upward net v node → Upward net v node'

namespace MetadataNode

variable {net : Network} {v : Nat}

theorem keepsUpward_of_isRequest {command : Bytes} (h : IsRequest command) :
    KeepsUpward net v command := by
  intro node node' reply hdispatch
  exact absurd hdispatch (not_respond_of_isRequest h node node' reply)

/-- An `UPDATE_NEXT` that names a node behind the one it is sent to. -/
theorem keepsUpward_updateNext {ip : Bytes} {port : Int} (h : IsAddress ip port)
    (hw : ∀ w, net.resolve ip port = some w → v < w) :
    KeepsUpward net v (linkCommand (ascii "UPDATE_NEXT") ip port) := by
  intro node node' reply hdispatch hup
  rw [dispatch_updateNext h] at hdispatch
  cases hdispatch
  exact ⟨hw, hup.skip⟩

theorem dispatch_notice_line (node : MetadataNode) (port : Int) :
    node.dispatch (ascii "UPDATE_PREV 127.0.0.1 " ++ showInt port) =
      node.reconfigure (32 :: (ascii "127.0.0.1 " ++ showInt port)) updatePrev := by
  have hascii : ascii "UPDATE_PREV 127.0.0.1 " =
      ascii "UPDATE_PREV" ++ 32 :: ascii "127.0.0.1 " := by decide
  rw [hascii, List.append_assoc, List.cons_append]
  have hword : readWord (ascii "UPDATE_PREV" ++ 32 :: (ascii "127.0.0.1 " ++ showInt port)) =
      some (ascii "UPDATE_PREV", 32 :: (ascii "127.0.0.1 " ++ showInt port)) :=
    readWord_append_space (by decide +kernel)
  have hne : ascii "UPDATE_PREV" ≠ ascii "PUT" ∧ ascii "UPDATE_PREV" ≠ ascii "GET" ∧
      ascii "UPDATE_PREV" ≠ ascii "PING" := by decide
  simp [dispatch, hword, hne]

/-- The notice of a health check changes the link to the node before. -/
theorem keepsUpward_notice {node node' : MetadataNode} {message : Bytes}
    (h : node.handleNextNodeFailure = (node', some message)) : KeepsUpward net v message := by
  unfold handleNextNodeFailure at h
  split at h
  · cases h
    intro other other' reply hdispatch hup
    rw [dispatch_notice_line] at hdispatch
    unfold reconfigure at hdispatch
    split at hdispatch
    · cases hdispatch
    · split at hdispatch
      · cases hdispatch
      · cases hdispatch
        exact ⟨hup.next, hup.skip⟩
  · cases h

/-- After a failure of the next node the link is the one to skip to, or there is none. -/
theorem upward_handleNextNodeFailure {node : MetadataNode} (hunset : net.resolve [] (-1) = none)
    (h : Upward net v node) : Upward net v node.handleNextNodeFailure.1 := by
  have hnone : ∀ w, net.resolve [] (-1) = some w → v < w := by
    intro w hw
    cases hunset.symm.trans hw
  unfold handleNextNodeFailure
  split
  · exact ⟨h.skip, hnone⟩
  · exact ⟨hnone, h.skip⟩

end MetadataNode

namespace Chain

/-! ## Links keep leading upward -/

/-- No client turns a link back. -/
def LinksUpward (net : Network) (_ : Chain) : Label → Prop
  | .connect v command => KeepsUpward net v command
  | _ => True

structure Ascends (net : Network) (s : Chain) : Prop where
  nodes : ∀ v, Upward net v (s.nodes v)
  commands : ∀ id c, s.conns id = some c → KeepsUpward net c.node c.command

section

variable {net : Network} {nodes : Nat → MetadataNode} {s s' : Chain} {l : Label}
  {tr : List (Chain × Label)}

theorem Ascends.step (h : Ascends net s) (hunset : net.resolve [] (-1) = none)
    (hbasic : Basic net nodes s) (hP : LinksUpward net s l) (hstep : Step net s l s') :
    Ascends net s' where
  nodes := by
    intro v
    have hrelinks := hstep.relinks v
    generalize s'.nodes v = node at hrelinks
    cases hrelinks with
    | keep _ _ hsame =>
        have hup := h.nodes v
        rw [hsame]
        exact ⟨hup.next, hup.skip⟩
    | respond id c _ reply hc hv hdispatch =>
        subst hv
        exact h.commands id c hc _ _ reply hdispatch (h.nodes c.node)
    | recover _ => exact upward_handleNextNodeFailure hunset (h.nodes v)
  commands := by
    intro k d hd
    rcases hstep.conn hd with ⟨_, hopens⟩ | ⟨d', hd', hnode, hcommand, _⟩
    · cases hopens with
      | client v command _ => exact hP
      | forward id c w hc hforwarding _ =>
          -- Only a `PUT` is forwarded.
          rcases hbasic.active id c hc (by simp [hforwarding, Phase.Active]) with ⟨r, hr⟩
          exact keepsUpward_of_isRequest (isRequest_of_request hr)
      | notice v node message w _ hnext => exact keepsUpward_notice hnext
    · rw [hnode, hcommand]
      exact h.commands k d' hd'

theorem ascends_run (hunset : net.resolve [] (-1) = none) (hnodes : ∀ v, Upward net v (nodes v))
    (h : Run (Chain.step net) (LinksUpward net) (launch nodes) tr s) : Ascends net s := by
  refine h.state_invariant (I := Ascends net) ⟨hnodes, by simp [launch]⟩ ?_
  intro tr s l s' hrun hascends hP hs
  have hbasic := Basic.run hrun
  exact hascends.step hunset hbasic hP (step_cases hs)

end

/-! ## The work ahead -/

end Chain

/-- What the handler of a connection, and the forwards that descend from it, can still do: four
steps at each node from its own to the last. -/
def Conn.work (size : Nat) (c : Conn) : Nat :=
  match c.phase with
  | .received => 4 * (size - c.node)
  | .stored => 4 * (size - c.node) - 1
  | .forwarding => 4 * (size - c.node) - 2
  | .waiting _ => 1
  | .reading _ => 1
  | _ => 0

namespace Chain

def workAt (net : Network) (s : Chain) (id : Nat) : Nat :=
  ((s.conns id).map (Conn.work net.size)).getD 0

def work (net : Network) (s : Chain) : Nat :=
  ∑ id ∈ Finset.range s.opened, s.workAt net id

section

variable {net : Network} {nodes : Nat → MetadataNode} {s s' : Chain} {l : Label}
  {tr : List (Chain × Label)} {id : Nat} {c : Conn}

/-- A connection that changes contributes the difference. -/
theorem work_update (net : Network) (s' : Chain) (d : Conn) (hc : s.conns id = some c)
    (hid : id < s.opened) (hopened : s'.opened = s.opened)
    (hconns : s'.conns = Function.update s.conns id (some d)) :
    s'.work net + c.work net.size = s.work net + d.work net.size := by
  have hmem : id ∈ Finset.range s.opened := Finset.mem_range.2 hid
  have hbefore : s.workAt net id = c.work net.size := by simp [workAt, hc]
  have hafter : s'.workAt net id = d.work net.size := by simp [workAt, hconns]
  have hrest : ∑ k ∈ (Finset.range s.opened).erase id, s'.workAt net k =
      ∑ k ∈ (Finset.range s.opened).erase id, s.workAt net k := by
    refine Finset.sum_congr rfl fun k hk => ?_
    simp [workAt, hconns, Finset.ne_of_mem_erase hk]
  unfold work
  rw [hopened, ← Finset.add_sum_erase _ _ hmem, ← Finset.add_sum_erase _ _ hmem, hrest, hbefore,
    hafter]
  omega

theorem work_setPhase (net : Network) (phase : Phase) (hc : s.conns id = some c)
    (hid : id < s.opened) :
    (s.setPhase id c phase).work net + c.work net.size =
      s.work net + Conn.work net.size { c with phase := phase } :=
  work_update net _ _ hc hid rfl rfl

theorem work_addConn (s : Chain) (c : Conn) :
    (s.addConn c).work net = s.work net + c.work net.size := by
  unfold work
  rw [addConn_opened, Finset.sum_range_succ]
  have hold : ∀ k ∈ Finset.range s.opened, (s.addConn c).workAt net k = s.workAt net k := by
    intro k hk
    simp [workAt, (Finset.mem_range.1 hk).ne]
  have hnew : (s.addConn c).workAt net s.opened = c.work net.size := by simp [workAt]
  rw [Finset.sum_congr rfl hold, hnew]

/-- The steps in which a handler goes on. -/
def Label.handles : Label → Bool
  | .serve _ => true
  | .refuse _ => true
  | _ => false

/-- The steps that bring a command from outside: requests, and the notices of recoveries. -/
def Label.brings : Label → Bool
  | .connect _ _ => true
  | .recover _ => true
  | _ => false

theorem Moves.work_lt {phase : Phase} (h : Moves net s c phase) (hnode : c.node < net.size) :
    Conn.work net.size { c with phase := phase } < c.work net.size := by
  cases h <;> simp only [Conn.work, *] <;> omega

/-- A handler that goes on has less work ahead, and whatever comes from outside brings no more than
four steps at each node. -/
theorem Step.work (h : Step net s l s') (hbasic : Basic net nodes s)
    (hforward : ∀ id c w, s.conns id = some c → c.phase = .forwarding →
      s.nextUp net c.node = some w → c.node < w) :
    s'.work net + (if l.handles then 1 else 0) ≤
      s.work net + if l.brings then 4 * net.size else 0 := by
  have hlt : ∀ {c : Conn}, (c.phase = .received → c.work net.size ≤ 4 * net.size) := by
    intro c hphase
    simp only [Conn.work, hphase]
    omega
  cases h with
  | connect v command _ _ _ =>
      rw [work_addConn]
      exact Nat.add_le_add_left (hlt rfl) _
  | move id c phase hc _ hmove =>
      rcases hbasic.opened id c hc with ⟨hid, hnode⟩
      have hwork := work_setPhase net phase hc hid
      have hless := hmove.work_lt hnode
      simp only [Label.handles, Label.brings, if_true, Bool.false_eq_true, if_false]
      omega
  | store id c record hc _ hphase _ _ =>
      rcases hbasic.opened id c hc with ⟨hid, hnode⟩
      have hwork : (s.storeRecord id c record).work net + c.work net.size =
          s.work net + Conn.work net.size { c with phase := .stored } :=
        work_update net _ _ hc hid rfl rfl
      simp only [Conn.work, hphase] at hwork
      simp only [Label.handles, Label.brings, if_true, Bool.false_eq_true, if_false]
      omega
  | respond id c node reply hc _ hphase _ =>
      rcases hbasic.opened id c hc with ⟨hid, hnode⟩
      have hwork : ((s.setNode c.node node).setPhase id c (.replied reply)).work net +
          c.work net.size = s.work net + Conn.work net.size { c with phase := .replied reply } :=
        work_update net _ _ hc hid rfl rfl
      simp only [Conn.work, hphase] at hwork
      simp only [Label.handles, Label.brings, if_true, Bool.false_eq_true, if_false]
      omega
  | forward id c w hc _ hphase hw =>
      rcases hbasic.opened id c hc with ⟨hid, hnode⟩
      -- The new connection is at a node with a higher number.
      have hw' := hforward id c w hc hphase hw
      have hsize := (nextUp_eq_some hw).2.1
      have hwork := work_setPhase net (.waiting s.opened) hc hid
      rw [work_addConn]
      simp only [Conn.work, hphase, forwardConn] at hwork ⊢
      simp only [Label.handles, Label.brings, if_true, Bool.false_eq_true, if_false]
      omega
  | refuse id c hc _ hphase =>
      rcases hbasic.opened id c hc with ⟨hid, hnode⟩
      have hwork := work_setPhase net (.replied (ascii "ERROR_FORWARD")) hc hid
      simp only [Conn.work, hphase] at hwork
      simp only [Label.handles, Label.brings, if_true, Bool.false_eq_true, if_false]
      omega
  | lose id c hc =>
      -- A handler works on, also when its connection is lost.
      have hwork := work_update net
        { s with conns := Function.update s.conns id (some { c with lost := true }) }
        { c with lost := true } hc (hbasic.opened id c hc).1 rfl rfl
      have hsame : Conn.work net.size { c with lost := true } = c.work net.size := rfl
      simp only [Label.handles, Label.brings, Bool.false_eq_true, if_false]
      omega
  | take id c reply hc hphase _ _ =>
      have hwork := work_setPhase net .taken hc (hbasic.opened id c hc).1
      simp only [Conn.work, hphase] at hwork
      simp only [Label.handles, Label.brings, Bool.false_eq_true, if_false]
      omega
  | crash => exact le_refl _
  | pingFails => exact le_refl _
  | recover => exact Nat.le_add_right _ _
  | notify v node message w _ _ _ _ =>
      rw [work_addConn]
      exact Nat.add_le_add_left (hlt rfl) _

/-- Handlers stop: when links lead upward and nobody turns one back, the handlers of a run take at
most four steps at each node for each request and each recovery, whatever crashes or breaks. -/
theorem handlers_stop (hunset : net.resolve [] (-1) = none) (hnodes : ∀ v, Upward net v (nodes v))
    (h : Run (Chain.step net) (LinksUpward net) (launch nodes) tr s) :
    tr.countP (fun e => e.2.handles) ≤ 4 * net.size * tr.countP (fun e => e.2.brings) := by
  have hbound := h.countP_add_le (work net) Label.handles Label.brings (4 * net.size) ?_
  · have hlaunch : (launch nodes).work net = 0 := by simp [work, launch]
    omega
  · intro tr s l s' hrun _ hs
    have hbasic := Basic.run hrun
    have hascends := ascends_run hunset hnodes hrun
    exact (step_cases hs).work hbasic fun _ c w _ _ hw =>
      (hascends.nodes c.node).next w (nextUp_eq_some hw).1

theorem upward_localNodes (n v : Nat) : Upward (localNet n) v (localNodes n v) := by
  have hunset : ∀ w, (localNet n).resolve [] (-1) = some w → v < w := by
    intro w hw
    simp [localNet] at hw
  unfold localNodes
  split
  · refine ⟨fun w hw => ?_, hunset⟩
    simp only [localNet, MetadataNode.launch, Option.ite_none_right_eq_some,
      Option.some.injEq] at hw
    omega
  · exact ⟨hunset, hunset⟩

/-- A `PUT` is forwarded by the first of three nodes, and the second crashes. -/
def putThenCrash : List Label :=
  [.connect 0 (ascii "PUT a 1 2 3 r x"), .serve 0, .serve 0, .serve 0, .crash 1]

theorem handlers_stop_three :
    let tr := (Run.replayed (Chain.step (localNet 3)) (launch (localNodes 3))
      (putThenCrash ++ [.lose 1, .serve 0])).1
    tr.countP (fun e => e.2.handles) ≤ 4 * 3 * tr.countP (fun e => e.2.brings) := by
  refine handlers_stop (by simp [localNet]) (upward_localNodes 3) (Run.of_labels
    (L := fun l => LinksUpward (localNet 3) (launch (localNodes 3)) l) (by decide +kernel) ?_ ?_)
  · intro l hl
    cases l with
    | connect v command =>
        have hcommand : command = ascii "PUT a 1 2 3 r x" := by
          have hl' : v = 0 ∧ command = ascii "PUT a 1 2 3 r x" := by
            simpa [putThenCrash] using hl
          exact hl'.2
        exact keepsUpward_of_isRequest (hcommand ▸ by decide +kernel)
    | _ => trivial
  · intro s l hl
    cases l <;> exact hl

end

/-! ## Handlers at rest -/

/-- The handler of a connection has nothing left to do: it has answered its command, or ignored it,
or the command stops the node. -/
def Finished (s : Chain) (c : Conn) : Prop :=
  match c.phase with
  | .received => (s.nodes c.node).dispatch c.command = .die
  | .stored => False
  | .forwarding => False
  | .waiting _ => False
  | .reading _ => False
  | _ => True

/-- The handler of a connection waits, over one forward or more, for a crashed node, and has not
been told that a connection on the way is broken. -/
inductive Stranded (s : Chain) : Nat → Prop where
  | crashed (id child : Nat) (c cc : Conn) : s.conns id = some c → c.phase = .waiting child →
      s.conns child = some cc → arrived cc = none → s.up cc.node = false → Stranded s id
  | behind (id child : Nat) (c cc : Conn) : s.conns id = some c → c.phase = .waiting child →
      s.conns child = some cc → arrived cc = none → Stranded s child → Stranded s id

/-- A handler that waits has a younger connection to wait for, and no handler that is waited for
ignores its command. -/
structure Awaited (s : Chain) : Prop where
  older : ∀ id c p, s.conns id = some c → c.parent = some p → p < id
  child : ∀ id c k, s.conns id = some c → c.phase = .waiting k →
    ∃ ck, s.conns k = some ck ∧ ck.parent = some id
  heard : ∀ id c p, s.conns id = some c → c.parent = some p →
    c.phase ≠ .silent ∧ c.phase ≠ .taken

section

variable {net : Network} {nodes : Nat → MetadataNode} {s s' : Chain} {l : Label}
  {tr : List (Chain × Label)} {id : Nat} {c : Conn}

/-- Only the reply on a client's connection is read by a client. -/
theorem Step.taken (h : Step net s l s') {k : Nat} {d : Conn} (hd : s'.conns k = some d)
    (hphase : d.phase = .taken) :
    (l = .take k ∧ d.parent = none) ∨
      ∃ d', s.conns k = some d' ∧ d'.phase = .taken ∧ d'.parent = d.parent := by
  have hmoved : ∀ {id : Nat} {c : Conn} {phase : Phase}, phase ≠ .taken →
      (s.setPhase id c phase).conns k = some d →
      ∃ d', s.conns k = some d' ∧ d'.phase = .taken ∧ d'.parent = d.parent := by
    intro id c phase hne hd
    rcases setPhase_conn hd with ⟨_, rfl⟩ | ⟨_, hd⟩
    · exact absurd hphase hne
    · exact ⟨d, hd, hphase, rfl⟩
  cases h with
  | connect =>
      rcases addConn_conn hd with ⟨_, rfl⟩ | ⟨_, hd⟩
      · cases hphase
      · exact Or.inr ⟨d, hd, hphase, rfl⟩
  | move id c phase _ _ hmove => exact Or.inr (hmoved (by cases hmove <;> simp) hd)
  | store id c record _ _ _ _ _ => exact Or.inr (@hmoved id c .stored (by simp) hd)
  | respond id c node reply _ _ _ _ => exact Or.inr (@hmoved id c (.replied reply) (by simp) hd)
  | forward id c w _ _ _ _ =>
      rcases addConn_conn hd with ⟨_, rfl⟩ | ⟨_, hd⟩
      · cases hphase
      · exact Or.inr (hmoved (by simp) hd)
  | refuse id c _ _ _ => exact Or.inr (hmoved (by simp) hd)
  | lose id c hc =>
      rcases lose_conn hc hd with ⟨d', hd', heq⟩
      rw [heq] at hphase ⊢
      exact Or.inr ⟨d', hd', hphase, rfl⟩
  | take id c reply hc _ hparent _ =>
      rcases setPhase_conn hd with ⟨rfl, rfl⟩ | ⟨_, hd⟩
      · exact Or.inl ⟨rfl, hparent⟩
      · exact Or.inr ⟨d, hd, hphase, rfl⟩
  | notify =>
      rcases addConn_conn hd with ⟨_, rfl⟩ | ⟨_, hd⟩
      · cases hphase
      · exact Or.inr ⟨d, hd, hphase, rfl⟩
  | _ => exact Or.inr ⟨d, hd, hphase, rfl⟩

theorem Awaited.step (h : Awaited s) (hbasic : Basic net nodes s) (hstep : Step net s l s') :
    Awaited s' where
  older := by
    intro k d p hd hp
    rcases hstep.conn_cases hd with hnew | ⟨d', hd', hkept⟩
    · rw [hnew.id]
      cases hnew.opens with
      | forward id c w hc _ _ =>
          cases hp
          exact (hbasic.opened p c hc).1
      | _ => cases hp
    · exact h.older k d' p hd' (hkept.parent ▸ hp)
  child := hstep.waiting hbasic h.child
  heard := by
    intro k d p hd hp
    rcases hstep.conn_cases hd with hnew | ⟨d', hd', hkept⟩
    · cases hnew.opens <;> simp [forwardConn]
    · have hp' : d'.parent = some p := hkept.parent ▸ hp
      refine ⟨?_, ?_⟩
      · -- What is forwarded is a `PUT`, and no `PUT` is ignored.
        intro hsilent
        have hevolves := hkept.evolves
        rw [hsilent] at hevolves
        generalize hphase : Phase.silent = phase at hevolves
        cases hevolves with
        | same => exact (h.heard k d' p hd' hp').1 hphase.symm
        | move _ hmove =>
            cases hmove with
            | ignore hreceived hdispatch =>
                rcases hbasic.carries k d' p hd' hp' with ⟨r, hr⟩
                cases hdispatch.symm.trans ((request_eq_put _).1 hr).1
            | _ => cases hphase
        | _ => cases hphase
      · intro htaken
        rcases hstep.taken hd htaken with ⟨_, hnone⟩ | ⟨d'', hd'', hphase, hparent⟩
        · cases hnone.symm.trans hp
        · exact (h.heard k d'' p hd'' (hparent.trans hp)).2 hphase

theorem awaited_run {P : Chain → Label → Prop} (h : Run (Chain.step net) P (launch nodes) tr s) :
    Awaited s := by
  refine h.state_invariant (I := Awaited)
    ⟨by simp [launch], by simp [launch], by simp [launch]⟩ ?_
  intro tr s l s' hrun hawaited _ hs
  exact hawaited.step (Basic.run hrun) (step_cases hs)

/-- A handler that cannot step has finished or waits for a connection from which nothing has
arrived. -/
theorem blocked (hc : s.conns id = some c) (hup : s.up c.node = true) (hawaited : Awaited s)
    (hstep : Chain.step net s (.serve id) = none) :
    s.Finished c ∨ ∃ child cc, c.phase = .waiting child ∧ s.conns child = some cc ∧
      cc.parent = some id ∧ arrived cc = none := by
  simp only [Chain.step, hc, hup, if_true] at hstep
  unfold serveConn at hstep
  cases hphase : c.phase with
  | received =>
      left
      simp only [hphase, serveCommand] at hstep
      simp only [Finished, hphase]
      cases hdispatch : (s.nodes c.node).dispatch c.command with
      | die => rfl
      | put => cases hparse : MetadataNode.parsePut c.command <;> simp [hdispatch, hparse] at hstep
      | get filename =>
          cases hserves : (s.nodes c.node).servesReads <;> simp [hdispatch, hserves] at hstep
      | _ => simp [hdispatch] at hstep
  | stored =>
      simp only [hphase] at hstep
      split at hstep <;> cases hstep
  | forwarding =>
      simp only [hphase] at hstep
      split at hstep <;> cases hstep
  | waiting child =>
      -- A handler that waits is held up by a connection that has brought nothing.
      right
      rcases hawaited.child id c child hc hphase with ⟨cc, hcc, hparent⟩
      refine ⟨child, cc, rfl, hcc, hparent, ?_⟩
      simp only [hphase, hcc, Option.bind_some] at hstep
      cases harrived : arrived cc with
      | none => rfl
      | some reply => simp [harrived] at hstep
  | reading filename => simp [hphase] at hstep
  | replied reply => exact Or.inl (by simp [Finished, hphase])
  | silent => exact Or.inl (by simp [Finished, hphase])
  | closed => exact Or.inl (by simp [Finished, hphase])
  | taken => exact Or.inl (by simp [Finished, hphase])

/-- What is forwarded is finished once it has been answered, and it is told so. -/
theorem not_finished_of_parent {p : Nat} (hc : s.conns id = some c) (hparent : c.parent = some p)
    (hbasic : Basic net nodes s) (hawaited : Awaited s) (hnone : arrived c = none) :
    ¬ s.Finished c := by
  have hheard := hawaited.heard id c p hc hparent
  have hlost : c.lost = false := by
    cases hlost : c.lost with
    | false => rfl
    | true => simp [arrived, hlost] at hnone
  intro hfinished
  unfold Finished at hfinished
  cases hphase : c.phase with
  | received =>
      -- Only a `PUT` is forwarded, and it stops no node.
      rcases hbasic.carries id c p hc hparent with ⟨r, hr⟩
      rw [hphase] at hfinished
      cases hfinished.symm.trans ((request_eq_put _).1 hr).1
  | replied reply => simp [arrived, hlost, hphase] at hnone
  | closed => simp [arrived, hlost, hphase] at hnone
  | silent => exact hheard.1 hphase
  | taken => exact hheard.2 hphase
  | _ => simp [hphase] at hfinished

/-- In a chain at rest, a handler of a running node has finished or is stranded. -/
theorem finished_or_stranded (hbasic : Basic net nodes s) (hawaited : Awaited s)
    (hrest : ∀ id, Chain.step net s (.serve id) = none) (hc : s.conns id = some c)
    (hup : s.up c.node = true) : s.Finished c ∨ Stranded s id := by
  -- By induction on the connections opened since: a handler waits for a younger one.
  have hall : ∀ n id c, s.opened - id ≤ n → s.conns id = some c → s.up c.node = true →
      s.Finished c ∨ Stranded s id := by
    intro n
    induction n with
    | zero =>
        intro id c hn hc _
        have hid := (hbasic.opened id c hc).1
        omega
    | succ n ih =>
        intro id c hn hc hup
        rcases blocked hc hup hawaited (hrest id) with hfinished |
          ⟨child, cc, hphase, hcc, hparent, hnone⟩
        · exact Or.inl hfinished
        · refine Or.inr ?_
          cases hdown : s.up cc.node with
          | false => exact .crashed id child c cc hc hphase hcc hnone hdown
          | true =>
              have hyounger := hawaited.older child cc id hcc hparent
              have hid := (hbasic.opened child cc hcc).1
              rcases ih child cc (by omega) hcc hdown with hfinished | hstranded
              · exact absurd hfinished
                  (not_finished_of_parent hcc hparent hbasic hawaited hnone)
              · exact .behind id child c cc hc hphase hcc hnone hstranded
  exact hall s.opened id c (Nat.sub_le _ _) hc hup

theorem serveConn_of_finished (h : s.Finished c) : serveConn net s id c = none := by
  unfold Finished at h
  cases hphase : c.phase with
  | received =>
      rw [hphase] at h
      simp [serveConn, hphase, serveCommand, h]
  | stored => simp [hphase] at h
  | forwarding => simp [hphase] at h
  | waiting child => simp [hphase] at h
  | reading filename => simp [hphase] at h
  | _ => simp [serveConn, hphase]

theorem serveConn_of_stranded (hc : s.conns id = some c) (h : Stranded s id) :
    serveConn net s id c = none := by
  -- Nothing has arrived over the connection that the handler waits for.
  cases h with
  | crashed _ child c' cc hc' hphase hcc hnone _ =>
      cases hc.symm.trans hc'
      simp [serveConn, hphase, hcc, hnone]
  | behind _ child c' cc hc' hphase hcc hnone _ =>
      cases hc.symm.trans hc'
      simp [serveConn, hphase, hcc, hnone]

/-- The chain is at rest, whatever has crashed, broken or been rewired before, exactly when every
handler of a running node has finished or is stranded. -/
theorem at_rest_iff {P : Chain → Label → Prop}
    (h : Run (Chain.step net) P (launch nodes) tr s) :
    (∀ id, Chain.step net s (.serve id) = none) ↔
      ∀ id c, s.conns id = some c → s.up c.node = true → s.Finished c ∨ Stranded s id := by
  constructor
  · intro hrest id c hc hup
    exact finished_or_stranded (Basic.run h) (awaited_run h) hrest hc hup
  · intro hall id
    cases hc : s.conns id with
    | none => simp [Chain.step, hc]
    | some c =>
        cases hup : s.up c.node with
        | false => simp [Chain.step, hc, hup]
        | true =>
            simp only [Chain.step, hc, hup, if_true]
            rcases hall id c hc hup with hfinished | hstranded
            · exact serveConn_of_finished hfinished
            · exact serveConn_of_stranded hc hstranded

/-- The chain is at rest when no handler of an opened connection can step. -/
theorem at_rest_of_opened (hbasic : Basic net nodes s)
    (hall : ∀ id < s.opened, (Chain.step net s (.serve id)).isNone = true) (id : Nat) :
    Chain.step net s (.serve id) = none := by
  cases hc : s.conns id with
  | none => simp [Chain.step, hc]
  | some c => exact Option.isNone_iff_eq_none.1 (hall id (hbasic.opened id c hc).1)

/-- The first of the three nodes waits for the crashed one. -/
theorem at_rest_iff_three :
    let s := (Run.replayed (Chain.step (localNet 3)) (launch (localNodes 3)) putThenCrash).2
    (∀ id, Chain.step (localNet 3) s (.serve id) = none) ∧ Stranded s 0 := by
  intro s
  have hrun : Run (Chain.step (localNet 3)) (fun _ _ => True) (launch (localNodes 3))
      (Run.replayed (Chain.step (localNet 3)) (launch (localNodes 3)) putThenCrash).1 s :=
    Run.of_replayed (by decide +kernel) fun _ _ => trivial
  have hrest : ∀ id, Chain.step (localNet 3) s (.serve id) = none :=
    at_rest_of_opened (Basic.run hrun) (by decide +kernel)
  refine ⟨hrest, ?_⟩
  have hc : s.conns 0 = some ⟨0, ascii "PUT a 1 2 3 r x", none, 0, .waiting 1, false⟩ := by
    decide +kernel
  rcases (at_rest_iff hrun).1 hrest 0 _ hc (by decide +kernel) with hfinished | hstranded
  · exact hfinished.elim
  · exact hstranded

/-! ## Chains without failures -/

/-- Handlers go on, and nothing else happens. -/
def OnlyServes (_ : Chain) : Label → Prop
  | .serve _ => True
  | _ => False

theorem onlyServes_failureFree (s : Chain) (l : Label) (h : OnlyServes s l) : FailureFree s l := by
  cases l with
  | serve _ => trivial
  | _ => exact h.elim

instance (s : Chain) (l : Label) : Decidable (OnlyServes s l) :=
  match l with
  | .serve _ => inferInstanceAs (Decidable True)
  | .connect _ _ => inferInstanceAs (Decidable False)
  | .take _ => inferInstanceAs (Decidable False)
  | .refuse _ => inferInstanceAs (Decidable False)
  | .lose _ => inferInstanceAs (Decidable False)
  | .crash _ => inferInstanceAs (Decidable False)
  | .pingFails _ => inferInstanceAs (Decidable False)
  | .recover _ => inferInstanceAs (Decidable False)

/-- What has become of a request at the end. -/
def Served (net : Network) (s : Chain) (c : Conn) : Prop :=
  match request c.command with
  | some (.put r) => (c.phase = .replied (ascii "ACK") ∨ c.phase = .taken) ∧
      ∀ w, c.node ≤ w → w < net.size → ⟨w, c.origin, r⟩ ∈ s.log
  | some (.get _) => (∃ reply, c.phase = .replied reply) ∨ c.phase = .taken
  | none => c.phase = .silent ∨ (∃ reply, c.phase = .replied reply) ∨ c.phase = .taken

theorem not_stranded (hup : ∀ v, s.up v = true) : ¬ Stranded s id := by
  intro h
  induction h with
  | crashed _ _ _ cc _ _ _ _ hdown => cases hdown.symm.trans (hup cc.node)
  | behind _ _ _ _ _ _ _ _ _ ih => exact ih

/-- A handler that has finished in a chain without failures has served its request. -/
theorem Calm.served (h : Calm net nodes s) (hc : s.conns id = some c)
    (hfinished : s.Finished c) : Served net s c := by
  have hrequest := h.wires.requests id c hc
  have hfit := h.flow.fitting id c hc
  have hnot : c.phase ≠ .received := by
    intro hphase
    simp only [Finished, hphase] at hfinished
    have hdispatch := hrequest.dispatch (s.nodes c.node)
    simp [hfinished] at hdispatch
  unfold Served
  unfold Fitting at hfit
  split <;> rename_i hop
  · rename_i r
    rw [hop] at hfit
    rcases hfit with hphase | hactive | ⟨reply, hphase⟩ | hphase
    · exact absurd hphase hnot
    · cases hphase : c.phase <;> simp [Finished, hphase, Phase.Active] at hfinished hactive
    · have hack := h.answers.acked id c r reply hc hop hphase
      exact ⟨Or.inl (hack ▸ hphase), h.answers.carried id c r hc hop (Or.inl ⟨reply, hphase⟩)⟩
    · exact ⟨Or.inr hphase, h.answers.carried id c r hc hop (Or.inr hphase)⟩
  · rw [hop] at hfit
    rcases hfit with hphase | hphase | hreplied
    · exact absurd hphase hnot
    · simp [Finished, hphase] at hfinished
    · exact hreplied
  · rw [hop] at hfit
    rcases hfit with hphase | hrest
    · exact absurd hphase hnot
    · exact hrest

/-- Requests settle: however the handlers of a chain without failures go on, they stop after a
number of steps fixed beforehand, and when they have stopped, every request is answered, a
well-formed `PUT` with `ACK` and stored at every node from its own to the last. -/
theorem requests_settle (hwired : Wired net nodes)
    (h : Run (Chain.step net) FailureFree (launch nodes) tr s) {tr' : List (Chain × Label)}
    (h' : Run (Chain.step net) OnlyServes s tr' s') :
    tr'.length ≤ s.work net ∧
      ((∀ id, Chain.step net s' (.serve id) = none) →
        ∀ id c, s'.conns id = some c → Served net s' c) := by
  have hcalm : ∀ {tr : List (Chain × Label)} {t : Chain}, Run (Chain.step net) OnlyServes s tr t →
      Calm net nodes t :=
    fun hrun => Calm.run hwired (fun _ _ hP => hP) (h.trans (hrun.mono onlyServes_failureFree))
  refine ⟨?_, ?_⟩
  · have hbound := h'.countP_add_le (work net) (fun _ => true) (fun _ => false) 0 ?_
    · rw [List.countP_true] at hbound
      omega
    · intro tr t l t' hrun hP hs
      have hall := hcalm hrun
      have hwork := (step_cases hs).work hall.basic fun id c w hc hphase hw => by
        have hnode := hall.wires.nextUp_eq hwired (hall.wires.forwarding id c hc hphase) hw
        omega
      cases l with
      | serve id => simpa [Label.handles, Label.brings] using hwork
      | _ => exact hP.elim
  · intro hrest id c hc
    have hall := hcalm h'
    have hawaited := awaited_run (h.trans (h'.mono onlyServes_failureFree))
    rcases finished_or_stranded hall.basic hawaited hrest hc (hall.wires.up c.node) with
      hfinished | hstranded
    · exact hall.served hc hfinished
    · exact absurd hstranded (not_stranded hall.wires.up)

/-- A `PUT` sent to the first of two nodes, and the six steps of its handlers. -/
theorem requests_settle_two :
    let s := (Run.replayed (Chain.step (localNet 2)) (launch (localNodes 2))
      [.connect 0 (ascii "PUT a 1 2 3 r x")]).2
    let run := Run.replayed (Chain.step (localNet 2)) s
      [.serve 0, .serve 0, .serve 0, .serve 1, .serve 1, .serve 0]
    run.1.length ≤ s.work (localNet 2) ∧
      ∀ id c, run.2.conns id = some c → Served (localNet 2) run.2 c := by
  intro s run
  have hrun : Run (Chain.step (localNet 2)) FailureFree (launch (localNodes 2))
      (Run.replayed (Chain.step (localNet 2)) (launch (localNodes 2))
        [.connect 0 (ascii "PUT a 1 2 3 r x")]).1 s :=
    Run.of_replayed (by decide +kernel) (by decide +kernel)
  have hserves : Run (Chain.step (localNet 2)) OnlyServes s run.1 run.2 :=
    Run.of_replayed (by decide +kernel) (by decide +kernel)
  have hbasic := Basic.run (hrun.trans (hserves.mono onlyServes_failureFree))
  have hsettle := requests_settle (wired_local (by decide)) hrun hserves
  exact ⟨hsettle.1, hsettle.2 (at_rest_of_opened hbasic (by decide +kernel))⟩

end

/-! ## Rings

Links that lead upward are needed: nodes that all forward, each to some other node, pass a `PUT` on
for ever. -/

/-- Every node forwards, and there is a node to forward to. -/
structure Ring (net : Network) (nodes : Nat → MetadataNode) : Prop where
  mustForward : ∀ v < net.size, (nodes v).mustForward = true
  next : ∀ v < net.size, ∃ w < net.size,
    net.resolve (nodes v).nextNodeIp (nodes v).nextNodePort = some w

structure Circles (nodes : Nat → MetadataNode) (s : Chain) : Prop where
  links : ∀ v, SameLinks (nodes v) (s.nodes v)
  up : ∀ v, s.up v = true
  kept : ∀ id c, s.conns id = some c → c.lost = false
  requests : ∀ id c, s.conns id = some c → IsRequest c.command
  puts : ∀ id c r, s.conns id = some c → request c.command = some (.put r) →
    c.phase = .received ∨ c.phase.Active

section

variable {net : Network} {nodes : Nat → MetadataNode} {s s' : Chain} {l : Label}
  {tr : List (Chain × Label)} {id : Nat} {c : Conn}

theorem circles_launch : Circles nodes (launch nodes) where
  links := fun v => SameLinks.refl (nodes v)
  up := fun _ => rfl
  kept := by simp [launch]
  requests := by simp [launch]
  puts := by simp [launch]

theorem Circles.setPhase (h : Circles nodes s) (hc : s.conns id = some c) {phase : Phase}
    (hphase : ∀ r, request c.command = some (.put r) → phase.Active) :
    Circles nodes (s.setPhase id c phase) where
  links := h.links
  up := h.up
  kept := by
    intro k d hd
    rcases setPhase_conn hd with ⟨rfl, rfl⟩ | ⟨_, hd⟩
    · exact h.kept k c hc
    · exact h.kept k d hd
  requests := by
    intro k d hd
    rcases setPhase_conn hd with ⟨rfl, rfl⟩ | ⟨_, hd⟩
    · exact h.requests k c hc
    · exact h.requests k d hd
  puts := by
    intro k d r hd hr
    rcases setPhase_conn hd with ⟨rfl, rfl⟩ | ⟨_, hd⟩
    · exact Or.inr (hphase r hr)
    · exact h.puts k d r hd hr

theorem Circles.addConn (h : Circles nodes s) (hlost : c.lost = false)
    (hphase : c.phase = .received) (hrequest : IsRequest c.command) :
    Circles nodes (s.addConn c) where
  links := h.links
  up := h.up
  kept := by
    intro k d hd
    rcases addConn_conn hd with ⟨rfl, rfl⟩ | ⟨_, hd⟩
    · exact hlost
    · exact h.kept k d hd
  requests := by
    intro k d hd
    rcases addConn_conn hd with ⟨rfl, rfl⟩ | ⟨_, hd⟩
    · exact hrequest
    · exact h.requests k d hd
  puts := by
    intro k d r hd hr
    rcases addConn_conn hd with ⟨rfl, rfl⟩ | ⟨_, hd⟩
    · exact Or.inl hphase
    · exact h.puts k d r hd hr

/-- What a handler on a ring makes of a `PUT` is never a reply. -/
theorem Circles.active (h : Circles nodes s) (hring : Ring net nodes) (hbasic : Basic net nodes s)
    (hawaited : Awaited s) (hc : s.conns id = some c) {phase : Phase} (hmove : Moves net s c phase)
    {r : FileMetadata} (hr : request c.command = some (.put r)) : phase.Active := by
  have hsize := (hbasic.opened id c hc).2
  have hreceived : c.phase ≠ .received := fun hphase => hmove.not_put hphase r hr
  cases hmove with
  | sendOn _ _ => trivial
  | ack _ hforward =>
      rw [(h.links c.node).mustForward, hring.mustForward c.node hsize] at hforward
      cases hforward
  | noNext _ hnone =>
      rcases hring.next c.node hsize with ⟨w, hw, hresolve⟩
      rw [nextUp, (h.links c.node).nextNodeIp, (h.links c.node).nextNodePort, hresolve] at hnone
      simp [hw, h.up] at hnone
  | relay child cc reply hphase hcc harrived =>
      -- The handler at the next node holds the same `PUT`, and has not replied either.
      rcases hawaited.child id c child hc hphase with ⟨cc', hcc', hparent⟩
      cases hcc.symm.trans hcc'
      rcases hbasic.forwarded child cc id hcc hparent with ⟨c', hc', hcommand, _⟩
      cases hc.symm.trans hc'
      have hkept := h.kept child cc hcc
      have hput := h.puts child cc r hcc (hcommand ▸ hr)
      cases hphase : cc.phase <;> simp [arrived, hkept, hphase, Phase.Active] at harrived hput
  | read f hphase =>
      have hput := h.puts id c r hc hr
      simp [hphase, Phase.Active] at hput
  | close hphase _ => exact absurd hphase hreceived
  | badArgs hphase _ _ => exact absurd hphase hreceived
  | redirect _ hphase _ _ => exact absurd hphase hreceived
  | startRead _ hphase _ _ => exact absurd hphase hreceived
  | ignore hphase _ => exact absurd hphase hreceived

theorem Circles.step (h : Circles nodes s) (hring : Ring net nodes) (hbasic : Basic net nodes s)
    (hawaited : Awaited s) (hP : FailureFree s l) (hstep : Step net s l s') :
    Circles nodes s' := by
  cases hstep with
  | connect v command _ _ _ => exact h.addConn rfl rfl hP
  | move id c phase hc _ hmove =>
      exact h.setPhase hc fun _ hr => h.active hring hbasic hawaited hc hmove hr
  | store id c record hc _ _ _ _ =>
      have hstored : Circles nodes (s.setPhase id c .stored) := h.setPhase hc fun _ _ => trivial
      refine ⟨fun v => ?_, h.up, hstored.kept, hstored.requests, hstored.puts⟩
      by_cases hv : v = c.node
      · subst hv
        have hsame := SameLinks.storeMetadata (s.nodes c.node) record
        simpa [Chain.storeRecord] using (h.links c.node).trans hsame
      · simpa [Chain.storeRecord, hv] using h.links v
  | respond id c node reply hc _ _ hdispatch =>
      exact absurd hdispatch
        (not_respond_of_isRequest (h.requests id c hc) (s.nodes c.node) node reply)
  | forward id c w hc _ _ _ =>
      have hwaiting : Circles nodes (s.setPhase id c (.waiting s.opened)) :=
        h.setPhase hc fun _ _ => trivial
      exact hwaiting.addConn rfl rfl (h.requests id c hc)
  | take id c reply hc hphase _ _ =>
      refine h.setPhase hc fun r hr => ?_
      have hput := h.puts id c r hc hr
      simp [hphase, Phase.Active] at hput
  | _ => exact hP.elim

theorem circles_run (hring : Ring net nodes)
    (h : Run (Chain.step net) FailureFree (launch nodes) tr s) : Circles nodes s := by
  refine h.state_invariant (I := Circles nodes) circles_launch ?_
  intro tr s l s' hrun hcircles hP hs
  exact hcircles.step hring (Basic.run hrun) (awaited_run hrun) hP (step_cases hs)

/-- Where a `PUT` is under way on a ring, some handler can step. -/
theorem Circles.can_step (h : Circles nodes s)
    (hrun : Run (Chain.step net) FailureFree (launch nodes) tr s) (hc : s.conns id = some c)
    {r : FileMetadata} (hr : request c.command = some (.put r)) :
    ∃ k s', Chain.step net s (.serve k) = some s' := by
  by_contra hnone
  have hrest : ∀ k, Chain.step net s (.serve k) = none := by
    intro k
    by_contra hsome
    rcases Option.ne_none_iff_exists'.1 hsome with ⟨s', hs⟩
    exact hnone ⟨k, s', hs⟩
  rcases finished_or_stranded (Basic.run hrun) (awaited_run hrun) hrest hc (h.up c.node) with
    hfinished | hstranded
  · unfold Finished at hfinished
    rcases h.puts id c r hc hr with hphase | hactive
    · rw [hphase] at hfinished
      cases hfinished.symm.trans ((request_eq_put _).1 hr).1
    · cases hphase : c.phase <;> simp [hphase, Phase.Active] at hfinished hactive
  · exact not_stranded h.up hstranded

/-- A ring never rests: without any failure, a well-formed `PUT` is never answered, and the
handlers can take any number of steps on it. -/
theorem ring_never_rests (hring : Ring net nodes)
    (h : Run (Chain.step net) FailureFree (launch nodes) tr s) (hc : s.conns id = some c)
    {r : FileMetadata} (hr : request c.command = some (.put r)) :
    (∀ reply, c.phase ≠ .replied reply) ∧
      ∀ n, ∃ tr' s', Run (Chain.step net) OnlyServes s tr' s' ∧ tr'.length = n := by
  refine ⟨?_, ?_⟩
  · intro reply hphase
    have hput := (circles_run hring h).puts id c r hc hr
    simp [hphase, Phase.Active] at hput
  · intro n
    induction n with
    | zero => exact ⟨[], s, .start, rfl⟩
    | succ n ih =>
        rcases ih with ⟨tr', t, hrun, hlength⟩
        have hall := h.trans (hrun.mono onlyServes_failureFree)
        -- The connection of the `PUT` is still there.
        rcases persist_of_run h hrun id c hc with ⟨phase, lost, hc'⟩
        rcases (circles_run hring hall).can_step hall hc' hr with ⟨k, t', hs⟩
        exact ⟨_, t', hrun.next (.serve k) t' trivial hs, by simp [hlength]⟩

/-- Two nodes, each started with the address of the other. -/
def ringNodes (v : Nat) : MetadataNode :=
  MetadataNode.launch (ascii "127.0.0.1") (9002 - v) (9001 + v)

theorem ring_local : Ring (localNet 2) ringNodes where
  mustForward := by
    intro v hv
    have hv' : v < 2 := hv
    interval_cases v <;> rfl
  next := by
    intro v hv
    have hv' : v < 2 := hv
    interval_cases v
    · exact ⟨1, by decide, by decide⟩
    · exact ⟨0, by decide, by decide⟩

theorem ring_never_rests_two :
    ∃ tr' s', Run (Chain.step (localNet 2)) OnlyServes
      (Run.replayed (Chain.step (localNet 2)) (launch ringNodes)
        [.connect 0 (ascii "PUT a 1 2 3 r x")]).2 tr' s' ∧ tr'.length = 1000 := by
  have hrun : Run (Chain.step (localNet 2)) FailureFree (launch ringNodes)
      (Run.replayed (Chain.step (localNet 2)) (launch ringNodes)
        [.connect 0 (ascii "PUT a 1 2 3 r x")]).1
      (Run.replayed (Chain.step (localNet 2)) (launch ringNodes)
        [.connect 0 (ascii "PUT a 1 2 3 r x")]).2 :=
    Run.of_replayed (by decide +kernel) (by decide +kernel)
  have hr : request (ascii "PUT a 1 2 3 r x") =
      some (.put ⟨ascii "a", ascii "r", 1, 2, 3, [ascii "x"]⟩) := by decide +kernel
  have hc : (Run.replayed (Chain.step (localNet 2)) (launch ringNodes)
      [.connect 0 (ascii "PUT a 1 2 3 r x")]).2.conns 0 =
        some ⟨0, ascii "PUT a 1 2 3 r x", none, 0, .received, false⟩ := by decide +kernel
  exact (ring_never_rests ring_local hrun hc hr).2 1000

end

end Chain
end Metadata
end Dfs

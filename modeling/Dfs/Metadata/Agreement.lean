import Dfs.Library.Linearization
import Dfs.Metadata.FailureFree

/-!
# Agreement of the replicas

A handler stores its record and forwards it later, so of two `PUT`s of one name the second may
reach the next node first.  Where that node then stores the older record over the newer one, the
replicas end up different.  Where no node does, they agree whenever nothing is in flight.
-/

namespace Dfs
namespace Metadata

open Bytes TextScan

namespace Chain

/-- Clients send `PUT`s to the first node, and nothing fails. -/
def FirstNodePuts : Label → Prop
  | .connect v command => v = 0 ∧ (readWord command).map Prod.fst = some (ascii "PUT")
  | .serve _ => True
  | .take _ => True
  | _ => False

instance (l : Label) : Decidable (FirstNodePuts l) :=
  match l with
  | .connect v command =>
      inferInstanceAs (Decidable (v = 0 ∧
        (readWord command).map Prod.fst = some (ascii "PUT")))
  | .serve _ => inferInstanceAs (Decidable True)
  | .take _ => inferInstanceAs (Decidable True)
  | .refuse _ => inferInstanceAs (Decidable False)
  | .lose _ => inferInstanceAs (Decidable False)
  | .crash _ => inferInstanceAs (Decidable False)
  | .pingFails _ => inferInstanceAs (Decidable False)
  | .recover _ => inferInstanceAs (Decidable False)

/-- The handler is about to store a record over a newer one of the same name: one that the node
before stored after it. -/
def overtaken (s : Chain) (id : Nat) : Bool :=
  match s.conns id with
  | none => false
  | some c =>
      match c.phase, request c.command with
      | .received, some (.put r) =>
          s.log.any fun a =>
            a.node = c.node && 0 < c.node && a.record.filename = r.filename && a.record ≠ r &&
              decide ([⟨c.node - 1, c.origin, r⟩, ⟨c.node - 1, a.origin, a.record⟩].Sublist s.log)
      | _, _ => false

/-- No record is stored over a newer one. -/
def InOrder (s : Chain) : Label → Prop
  | .serve id => overtaken s id = false
  | _ => True

instance (s : Chain) (l : Label) : Decidable (InOrder s l) :=
  match l with
  | .serve id => inferInstanceAs (Decidable (overtaken s id = false))
  | .connect _ _ => inferInstanceAs (Decidable True)
  | .take _ => inferInstanceAs (Decidable True)
  | .refuse _ => inferInstanceAs (Decidable True)
  | .lose _ => inferInstanceAs (Decidable True)
  | .crash _ => inferInstanceAs (Decidable True)
  | .pingFails _ => inferInstanceAs (Decidable True)
  | .recover _ => inferInstanceAs (Decidable True)

/-- Nothing is in flight: every request has been answered. -/
def Quiescent (s : Chain) : Prop :=
  ∀ id c, s.conns id = some c → (∃ reply, c.phase = .replied reply) ∨ c.phase = .taken

/-- A later store of a different record at a node was a later store at the node before it, too. -/
def Sequenced (log : List Applied) : Prop :=
  ∀ v a b, a.node = v + 1 → b.node = v + 1 → a.record.filename = b.record.filename →
    a.record ≠ b.record → [a, b].Sublist log →
    ¬ [⟨v, b.origin, b.record⟩, ⟨v, a.origin, a.record⟩].Sublist log

section

variable {net : Network} {nodes : Nat → MetadataNode} {s s' : Chain} {l : Label}
  {tr : List (Chain × Label)}

theorem failureFree_of_puts (s : Chain) (h : FirstNodePuts l) : FailureFree s l := by
  cases l with
  | connect v command =>
      rcases Option.map_eq_some_iff.1 h.2 with ⟨⟨op, args⟩, hword, hop⟩
      exact ⟨args, Or.inl (hword.trans (congrArg (fun w => some (w, args)) hop))⟩
  | serve _ => trivial
  | take _ => trivial
  | _ => exact h

/-- Clients are connected to the first node only. -/
def AtFirst (s : Chain) : Prop :=
  ∀ id c, s.conns id = some c → c.parent = none → c.node = 0

theorem AtFirst.step (h : AtFirst s) (hfirst : FirstNodePuts l)
    (hstep : CalmStep net nodes s l s') : AtFirst s' := by
  have hmoved : ∀ {id : Nat} {c : Conn} {phase : Phase}, s.conns id = some c →
      AtFirst (s.setPhase id c phase) := by
    intro id c phase hc k d hd hparent
    rcases setPhase_conn hd with ⟨rfl, rfl⟩ | ⟨_, hd⟩
    · exact h k c hc hparent
    · exact h k d hd hparent
  cases hstep with
  | connect v command _ _ =>
      intro k d hd hparent
      rcases addConn_conn hd with ⟨_, rfl⟩ | ⟨_, hd⟩
      · exact hfirst.1
      · exact h k d hd hparent
  | move id c phase hc _ => exact hmoved hc
  | store id c record hc _ _ => exact @hmoved id c .stored hc
  | forward id c hc _ _ =>
      intro k d hd hparent
      rcases addConn_conn hd with ⟨_, rfl⟩ | ⟨_, hd⟩
      · cases hparent
      · exact hmoved hc k d hd hparent
  | take id c reply hc _ _ => exact hmoved hc

/-- What a node has stored, the node before it has stored as well. -/
theorem stored_before (hcalm : Calm net nodes s) (h : AtFirst s) {v : Nat} {e : Applied}
    (he : e ∈ s.log) (hv : e.node = v + 1) : ⟨v, e.origin, e.record⟩ ∈ s.log := by
  rcases hcalm.basic.source e he with ⟨id, c, hc, hnode, horigin, _, hr⟩
  cases hparent : c.parent with
  | none =>
      have := h id c hc hparent
      omega
  | some p =>
      rcases hcalm.basic.forwarded id c p hc hparent with ⟨cp, hcp, hcommand, horigin', hsent⟩
      have hnext := hcalm.flow.next id c p cp hc hparent hcp
      have hlogged := hcalm.basic.logged p cp e.record hcp (hcommand ▸ hr) (by
        intro hphase
        simp [hphase, Phase.Sent] at hsent)
      have hnode' : cp.node = v := by omega
      rwa [hnode', horigin', horigin] at hlogged

/-- Once nothing is in flight, what a node has stored the next one has stored as well. -/
theorem stored_after (hcalm : Calm net nodes s) (hquiet : Quiescent s) {e : Applied}
    (he : e ∈ s.log) (hv : e.node + 1 < net.size) : ⟨e.node + 1, e.origin, e.record⟩ ∈ s.log := by
  rcases hcalm.basic.source e he with ⟨id, c, hc, hnode, horigin, _, hr⟩
  have := hcalm.answers.carried id c e.record hc hr (hquiet id c hc) (e.node + 1) (by omega) hv
  rwa [horigin] at this

theorem Sequenced.store (h : Sequenced s.log) (hcalm : Calm net nodes s) (hfirst : AtFirst s)
    {id : Nat} {c : Conn} (hc : s.conns id = some c) (hphase : c.phase = .received)
    {r : FileMetadata} (hr : request c.command = some (.put r)) (horder : overtaken s id = false)
    (honce : ⟨c.node, c.origin, r⟩ ∉ s.log) :
    Sequenced (s.log ++ [⟨c.node, c.origin, r⟩]) := by
  intro v a b ha hb hname hne hab hba
  rcases Linearization.pair_sublist_concat hab with hab | ⟨ha', rfl⟩
  · rcases Linearization.pair_sublist_concat hba with hba | ⟨_, heq⟩
    · exact h v a b ha hb hname hne hab hba
    · -- The node before had stored `a` already.
      exact honce (heq ▸ stored_before hcalm hfirst (hab.subset (by simp)) ha)
  · rcases Linearization.pair_sublist_concat hba with hba | ⟨_, heq⟩
    · have hnode : c.node = v + 1 := hb
      have hover : overtaken s id = true := by
        simp only [overtaken, hc, hphase, hr]
        refine List.any_eq_true.2 ⟨a, ha', ?_⟩
        simp [hnode, ha, hname, hne, hba]
      rw [horder] at hover
      cases hover
    · have : v = c.node := congrArg Applied.node heq
      have hnode : c.node = v + 1 := hb
      omega

theorem sequenced_run (hwired : Wired net nodes)
    (h : Run (Chain.step net) (fun s l => FirstNodePuts l ∧ InOrder s l) (launch nodes) tr s) :
    AtFirst s ∧ Sequenced s.log := by
  have hfree : ∀ s l, FirstNodePuts l ∧ InOrder s l → FailureFree s l :=
    fun s _ hP => failureFree_of_puts s hP.1
  induction h with
  | start => exact ⟨by simp [AtFirst, launch], by simp [Sequenced, launch]⟩
  | @step tr s s' l hrun hP hs ih =>
      have hcalm := Calm.run hwired hfree hrun
      have hcalm' := Calm.run hwired hfree (hrun.step hP hs)
      have hstep := (step_cases hs).calm hwired hcalm.basic hcalm.wires (hfree _ _ hP)
      refine ⟨ih.1.step hP.1 hstep, ?_⟩
      cases hstep with
      | store id c record hc hphase hr =>
          refine ih.2.store hcalm ih.1 hc hphase hr hP.2 fun hmem => ?_
          have honce := hcalm'.answers.once
          simp only [Chain.storeRecord, List.map_append, List.map_cons, List.map_nil] at honce
          exact (List.nodup_append.1 honce).2.2 _ (List.mem_map_of_mem hmem) _ (by simp) rfl
      | _ => exact ih.2

/-- In a run in which no node stores a record over a newer one, all nodes hold the same records
whenever nothing is in flight. -/
theorem replicas_agree (hwired : Wired net nodes)
    (hstores : ∀ v, v < net.size → (nodes v).metadataStore = (nodes 0).metadataStore)
    (h : Run (Chain.step net) (fun s l => FirstNodePuts l ∧ InOrder s l) (launch nodes) tr s)
    (hquiet : Quiescent s) {v : Nat} (hv : v < net.size) :
    (s.nodes v).metadataStore = (s.nodes 0).metadataStore := by
  have hcalm := Calm.run hwired (fun s _ hP => failureFree_of_puts s hP.1) h
  rcases sequenced_run hwired h with ⟨hfirst, hseq⟩
  induction v with
  | zero => rfl
  | succ v ih =>
      have hv' : v < net.size := Nat.lt_of_succ_lt hv
      rw [← ih hv']
      funext f
      rw [hcalm.basic.store, hcalm.basic.store, storedAt, storedAt]
      cases hlast : lastWrite s.log v f with
      | none =>
          cases hlast' : lastWrite s.log (v + 1) f with
          | none => rw [hstores _ hv, hstores _ hv']
          | some e =>
              rcases lastWrite_eq_some hlast' with ⟨he, hnode, hname⟩
              exact absurd hname
                (lastWrite_eq_none.1 hlast ⟨v, e.origin, e.record⟩
                  (stored_before hcalm hfirst he hnode) rfl)
      | some e =>
          rcases lastWrite_eq_some hlast with ⟨he, hnode, hname⟩
          have hafter : ⟨v + 1, e.origin, e.record⟩ ∈ s.log :=
            hnode ▸ stored_after hcalm hquiet he (hnode.symm ▸ hv)
          cases hlast' : lastWrite s.log (v + 1) f with
          | none => exact absurd hname (lastWrite_eq_none.1 hlast' ⟨v + 1, e.origin, e.record⟩ hafter rfl)
          | some e' =>
              rcases lastWrite_eq_some hlast' with ⟨he', hnode', hname'⟩
              have hbefore := stored_before hcalm hfirst he' hnode'
              -- Two different last records would have been stored in opposite orders.
              by_contra hne
              simp only [Option.some.injEq] at hne
              have hlater := sublist_lastWrite hlast' hafter rfl hname
                fun heq => hne (congrArg Applied.record heq).symm
              have hearlier := sublist_lastWrite hlast hbefore rfl hname'
                fun heq => hne (congrArg Applied.record heq.symm).symm
              have hself : e = ⟨v, e.origin, e.record⟩ := by rw [← hnode]
              rw [hself] at hearlier
              exact hseq v ⟨v + 1, e.origin, e.record⟩ e' rfl hnode'
                (hname.trans hname'.symm) (Ne.symm hne) hlater hearlier

/-- It is enough to look at the connections opened so far. -/
theorem quiescent_of_opened (hbasic : Basic net nodes s)
    (h : ∀ id < s.opened, ∀ c ∈ s.conns id,
      c.phase = .taken ∨ c.phase = .replied (ascii "ACK")) : Quiescent s := by
  intro id c hc
  rcases h id (hbasic.opened id c hc).1 c hc with hphase | hphase
  · exact Or.inr hphase
  · exact Or.inl ⟨_, hphase⟩

end

/-! ## Two PUTs of one name -/

/-- Two clients put `a` at the first of two nodes, and both records are stored there. -/
def bothStored : List Label :=
  [.connect 0 (ascii "PUT a 1 2 3 r x"), .connect 0 (ascii "PUT a 1 2 3 r y"), .serve 0, .serve 1]

/-- The handler of a connection of the first node forwards over the given connection, and the
acknowledgement comes back. -/
def forwardOver (id child : Nat) : List Label :=
  [.serve id, .serve id, .serve child, .serve child, .serve id]

/-- When the records are forwarded in the order of their stores, the nodes agree. -/
theorem replicas_agree_in_order :
    let run := Run.replayed (Chain.step (localNet 2)) (launch (localNodes 2))
      (bothStored ++ forwardOver 0 2 ++ forwardOver 1 3)
    (run.2.nodes 1).metadataStore = (run.2.nodes 0).metadataStore := by
  intro run
  have hrun : Run (Chain.step (localNet 2)) (fun s l => FirstNodePuts l ∧ InOrder s l)
      (launch (localNodes 2)) run.1 run.2 :=
    Run.of_replayed (by decide +kernel) (by decide +kernel)
  have hquiet : Quiescent run.2 := quiescent_of_opened (Basic.run hrun) (by decide +kernel)
  exact replicas_agree (wired_local (by decide))
    (fun v _ => by rw [store_localNodes, store_localNodes]) hrun hquiet (by decide)

/-- When the second record is forwarded first, both clients are acknowledged, nothing is in flight,
and the nodes hold different records. -/
theorem forwards_overtake :
    let run := Run.replayed (Chain.step (localNet 2)) (launch (localNodes 2))
      (bothStored ++ forwardOver 1 2 ++ forwardOver 0 3)
    Run (Chain.step (localNet 2)) (fun _ l => FirstNodePuts l) (launch (localNodes 2))
        run.1 run.2 ∧
      Quiescent run.2 ∧
      (∀ id < 4, (run.2.conns id).map Conn.phase = some (.replied (ascii "ACK"))) ∧
      (run.2.nodes 0).metadataStore (ascii "a") =
        some ⟨ascii "a", ascii "r", 1, 2, 3, [ascii "y"]⟩ ∧
      (run.2.nodes 1).metadataStore (ascii "a") =
        some ⟨ascii "a", ascii "r", 1, 2, 3, [ascii "x"]⟩ := by
  intro run
  have hrun : Run (Chain.step (localNet 2)) (fun _ l => FirstNodePuts l)
      (launch (localNodes 2)) run.1 run.2 :=
    Run.of_replayed (by decide +kernel) (by decide +kernel)
  exact ⟨hrun, quiescent_of_opened (Basic.run hrun) (by decide +kernel), by decide +kernel,
    by decide +kernel, by decide +kernel⟩

end Chain
end Metadata
end Dfs

import Dfs.Library.Linearization
import Dfs.Metadata.FailureFree

/-!
# The failure-free chain is linearizable

A `PUT` takes effect when the last node stores its record, a `GET` when the last node looks its
name up.  The order of these effects linearizes the history of the clients.
-/

namespace Dfs
namespace Metadata

open Bytes TextScan Linearization

/-- The map from names to records, as one object. -/
def kv (init : Bytes → Option FileMetadata) :
    Spec (Bytes → Option FileMetadata) Op Bytes where
  init := init
  apply := fun m op =>
    match op with
    | .put record => (Function.update m record.filename (some record), ascii "ACK")
    | .get filename => (m, MetadataNode.lookupMessage (m filename))

namespace Chain

/-! ## Histories -/

/-- What a step adds to the history: a well-formed request is sent, or its reply is read.  A `GET`
that is redirected has not been answered. -/
def event (e : Chain × Label) : Option (Event Op Bytes) :=
  match e.2 with
  | .connect _ command => (request command).map (.call e.1.opened)
  | .take id =>
      match e.1.conns id with
      | none => none
      | some c =>
          match request c.command, c.phase with
          | some _, .replied reply =>
              if reply = ascii "REDIRECT_TO_TAIL" then none else some (.ret id reply)
          | _, _ => none
  | _ => none

def history (tr : List (Chain × Label)) : List (Event Op Bytes) :=
  tr.filterMap event

/-- The `PUT`s, and the `GET`s that have been answered. -/
def counts (H : List (Event Op Bytes)) (id : Nat) : Bool :=
  H.any fun
    | .call i (.put _) => i = id
    | .call _ (.get _) => false
    | .ret i _ => i = id

/-- The requests and records that a sequence of operations puts. -/
def puts (L : List (Entry Op Bytes)) : List (Nat × FileMetadata) :=
  L.filterMap fun e =>
    match e.op with
    | .put record => some (e.id, record)
    | .get _ => none

/-- The requests and records stored at a node. -/
def appliedAt (log : List Applied) (v : Nat) : List (Nat × FileMetadata) :=
  (log.filter fun e => e.node = v).map fun e => (e.origin, e.record)

theorem mem_puts {L : List (Entry Op Bytes)} {id : Nat} {r : FileMetadata} :
    (id, r) ∈ puts L ↔ ∃ e ∈ L, e.id = id ∧ e.op = .put r := by
  constructor
  · intro h
    rcases List.mem_filterMap.1 h with ⟨e, he, heq⟩
    cases hop : e.op with
    | put r' =>
        simp only [hop, Option.some.injEq, Prod.mk.injEq] at heq
        exact ⟨e, he, heq.1, by rw [hop, heq.2]⟩
    | get f => simp [hop] at heq
  · rintro ⟨e, he, rfl, hop⟩
    exact List.mem_filterMap.2 ⟨e, he, by simp [hop]⟩

theorem mem_appliedAt {log : List Applied} {v id : Nat} {r : FileMetadata} :
    (id, r) ∈ appliedAt log v ↔ ⟨v, id, r⟩ ∈ log := by
  constructor
  · intro h
    rcases List.mem_map.1 h with ⟨e, he, heq⟩
    rcases List.mem_filter.1 he with ⟨he, hv⟩
    simp only [Prod.mk.injEq] at heq
    rcases heq with ⟨rfl, rfl⟩
    simp only [decide_eq_true_eq] at hv
    exact hv ▸ he
  · intro h
    exact List.mem_map.2 ⟨⟨v, id, r⟩, List.mem_filter.2 ⟨h, by simp⟩, rfl⟩

/-! ## The order of effects -/

/-- `L` orders the effects so far. -/
structure Ordered (net : Network) (nodes : Nat → MetadataNode) (tr : List (Chain × Label))
    (s : Chain) (L : List (Entry Op Bytes)) : Prop where
  built : Linearizing (kv (nodes (net.size - 1)).metadataStore) (history tr) L
  state : replay (kv (nodes (net.size - 1)).metadataStore) (nodes (net.size - 1)).metadataStore L =
    storedAt nodes s.log (net.size - 1)
  applied : puts L = appliedAt s.log (net.size - 1)
  acks : ∀ e ∈ L, ∀ r, e.op = .put r → e.res = ascii "ACK"
  gets : ∀ e ∈ L, ∀ f, e.op = .get f → ∃ c, s.conns e.id = some c ∧
    request c.command = some (.get f) ∧ c.phase ≠ .received ∧ ∀ f', c.phase ≠ .reading f'
  answered : ∀ id c op reply, s.conns id = some c → c.parent = none →
    request c.command = some op → c.phase = .replied reply → reply ≠ ascii "REDIRECT_TO_TAIL" →
    ∃ e ∈ L, e.id = id ∧ e.res = reply
  called : ∀ id c op, s.conns id = some c → c.parent = none → request c.command = some op →
    Event.call id op ∈ history tr
  known : ∀ ev ∈ history tr, ev.id < s.opened

section

variable {net : Network} {nodes : Nat → MetadataNode} {s s' : Chain} {l : Label}
  {tr : List (Chain × Label)} {L : List (Entry Op Bytes)} {id : Nat} {c : Conn}

theorem ordered_launch : Ordered net nodes [] (launch nodes) [] where
  built := .start
  state := by
    funext f
    simp [Linearization.replay, storedAt, launch, lastWrite]
  applied := by simp [puts, appliedAt, launch]
  acks := by simp
  gets := by simp
  answered := by simp [launch]
  called := by simp [launch]
  known := by simp [history]

theorem history_concat (e : Chain × Label) :
    history (tr ++ [e]) = history tr ++ (event e).toList := by
  rw [history, List.filterMap_append, history]
  cases h : event e <;> simp [h]

theorem history_serve : history (tr ++ [(s, .serve id)]) = history tr := by
  simp [history_concat, event]

theorem Ordered.connect (h : Ordered net nodes tr s L) (hbasic : Basic net nodes s) (v : Nat)
    (command : Bytes) :
    Ordered net nodes (tr ++ [(s, .connect v command)])
      (s.addConn
        { node := v
          command := command
          parent := none
          origin := s.opened
          phase := .received
          lost := false }) L := by
  -- The call is recorded if the command is a request.
  have hevent : history (tr ++ [(s, .connect v command)]) =
      history tr ++ ((request command).map (Event.call s.opened)).toList := history_concat _
  have hsub : ∀ ev ∈ history tr, ev ∈ history (tr ++ [(s, .connect v command)]) := by
    intro ev hev
    rw [hevent]
    exact List.mem_append_left _ hev
  refine ⟨?_, h.state, h.applied, h.acks, ?_, ?_, ?_, ?_⟩
  · rw [hevent]
    cases hop : request command with
    | none => simpa using h.built
    | some op =>
        -- The identifier is new.
        refine h.built.call s.opened op fun op' hmem => ?_
        exact absurd (h.known _ hmem) (lt_irrefl _)
  · intro e he f hf
    rcases h.gets e he f hf with ⟨d, hd, hrest⟩
    have hne : e.id ≠ s.opened := (hbasic.opened _ d hd).1.ne
    exact ⟨d, by simpa [hne] using hd, hrest⟩
  · intro k d op reply hd hparent hop hphase
    rcases addConn_conn hd with ⟨rfl, rfl⟩ | ⟨_, hd⟩
    · cases hphase
    · exact h.answered k d op reply hd hparent hop hphase
  · intro k d op hd hparent hop
    rcases addConn_conn hd with ⟨rfl, rfl⟩ | ⟨_, hd⟩
    · rw [hevent, hop]
      simp
    · exact hsub _ (h.called k d op hd hparent hop)
  · intro ev hev
    rw [hevent] at hev
    rcases List.mem_append.1 hev with hev | hev
    · exact Nat.lt_succ_of_lt (h.known ev hev)
    · cases hop : request command with
      | none => simp [hop] at hev
      | some op =>
          simp only [hop, Option.map_some, Option.toList_some, List.mem_singleton] at hev
          rw [hev]
          exact Nat.lt_succ_self _

/-- A handler goes on, with what has taken effect by then. -/
theorem Ordered.move {L' : List (Entry Op Bytes)} (h : Ordered net nodes tr s L)
    (hc : s.conns id = some c) {phase : Phase} (hphase : phase ≠ .received)
    (hreading : ∀ f, phase = .reading f → c.phase = .received)
    (hbuilt : Linearizing (kv (nodes (net.size - 1)).metadataStore) (history tr) L')
    (hstate : replay (kv (nodes (net.size - 1)).metadataStore)
      (nodes (net.size - 1)).metadataStore L' = storedAt nodes s.log (net.size - 1))
    (happlied : puts L' = puts L) (hsub : ∀ e ∈ L, e ∈ L')
    (hacks : ∀ e ∈ L', ∀ r, e.op = .put r → e.res = ascii "ACK")
    (hnew : ∀ e ∈ L', e ∉ L → ∀ f, e.op = .get f →
      e.id = id ∧ request c.command = some (.get f) ∧ ∀ f', phase ≠ .reading f')
    (hanswer : ∀ op reply, c.parent = none → request c.command = some op →
      phase = .replied reply → reply ≠ ascii "REDIRECT_TO_TAIL" →
      ∃ e ∈ L', e.id = id ∧ e.res = reply) :
    Ordered net nodes (tr ++ [(s, .serve id)]) (s.setPhase id c phase) L' := by
  refine ⟨?_, hstate, happlied.trans h.applied, hacks, ?_, ?_, ?_, ?_⟩
  · rw [history_serve]
    exact hbuilt
  · intro e he f hf
    by_cases hold : e ∈ L
    · rcases h.gets e hold f hf with ⟨d, hd, hop, hrec, hread⟩
      by_cases hk : e.id = id
      · rw [hk] at hd
        cases hc.symm.trans hd
        refine ⟨{ c with phase := phase }, by simp [hk], hop, hphase, fun f' hf' => ?_⟩
        exact absurd (hreading f' hf') hrec
      · exact ⟨d, by simpa [hk] using hd, hop, hrec, hread⟩
    · -- The read that takes effect in this step.
      rcases hnew e he hold f hf with ⟨hk, hop, hread⟩
      exact ⟨{ c with phase := phase }, by simp [hk], hop, hphase, hread⟩
  · intro k d op reply hd hparent hop hreply hne
    rcases setPhase_conn hd with ⟨rfl, rfl⟩ | ⟨_, hd⟩
    · exact hanswer op reply hparent hop hreply hne
    · rcases h.answered k d op reply hd hparent hop hreply hne with ⟨e, he, hrest⟩
      exact ⟨e, hsub e he, hrest⟩
  · intro k d op hd hparent hop
    rw [history_serve]
    rcases setPhase_conn hd with ⟨rfl, rfl⟩ | ⟨_, hd⟩
    · exact h.called k c op hc hparent hop
    · exact h.called k d op hd hparent hop
  · rw [history_serve]
    exact h.known

/-- A phase without an effect. -/
theorem Ordered.keep (h : Ordered net nodes tr s L) (hc : s.conns id = some c) {phase : Phase}
    (hphase : phase ≠ .received) (hreading : ∀ f, phase = .reading f → c.phase = .received)
    (hanswer : ∀ op reply, c.parent = none → request c.command = some op →
      phase = .replied reply → reply ≠ ascii "REDIRECT_TO_TAIL" →
      ∃ e ∈ L, e.id = id ∧ e.res = reply) :
    Ordered net nodes (tr ++ [(s, .serve id)]) (s.setPhase id c phase) L :=
  h.move hc hphase hreading h.built h.state rfl (fun _ he => he) h.acks
    (fun _ he hne => absurd he hne) hanswer

/-- A `PUT` that has been stored at the last node stands in the order. -/
theorem Ordered.mem_of_applied (h : Ordered net nodes tr s L) {origin : Nat} {r : FileMetadata}
    (happlied : ⟨net.size - 1, origin, r⟩ ∈ s.log) :
    ∃ e ∈ L, e.id = origin ∧ e.res = ascii "ACK" := by
  have hmem : (origin, r) ∈ puts L := by
    rw [h.applied]
    exact mem_appliedAt.2 happlied
  rcases mem_puts.1 hmem with ⟨e, he, hid, hop⟩
  exact ⟨e, he, hid, h.acks e he r hop⟩

/-- A connection on which nothing has taken effect: the client's own for a `GET`, any at the last
node for a `PUT`. -/
theorem Ordered.not_mem (h : Ordered net nodes tr s L) (hcalm : Calm net nodes s)
    (hc : s.conns id = some c)
    (hop : (∃ f, request c.command = some (.get f) ∧ c.phase = .reading f) ∨
      (∃ r, request c.command = some (.put r)) ∧ c.phase = .received ∧ c.node = net.size - 1) :
    c.origin ∉ L.map Entry.id := by
  intro hmem
  rcases List.mem_map.1 hmem with ⟨e, he, hid⟩
  rcases hcalm.basic.root id c hc with ⟨cr, hcr, hroot, hcommand⟩
  cases heop : e.op with
  | put r' =>
      have happlied : (c.origin, r') ∈ appliedAt s.log (net.size - 1) := by
        rw [← h.applied]
        exact mem_puts.2 ⟨e, he, hid, heop⟩
      rcases hcalm.basic.source _ (mem_appliedAt.1 happlied) with
        ⟨k, d, hd, hnode, horigin, hne, hr'⟩
      rcases hop with ⟨f, hf, _⟩ | ⟨_, hphase, hlast⟩
      · -- The request would be both.
        rcases hcalm.basic.root k d hd with ⟨dr, hdr, _, hcommand'⟩
        rw [horigin] at hdr
        cases hcr.symm.trans hdr
        rw [← hcommand, hcommand'] at hf
        cases hf.symm.trans hr'
      · have heq := hcalm.flow.unique k id d c hd hc horigin (hnode.trans hlast.symm)
        subst heq
        cases hc.symm.trans hd
        exact hne hphase
  | get f =>
      rcases h.gets e he f heop with ⟨d, hd, hf, _, hread⟩
      rw [hid] at hd
      cases hcr.symm.trans hd
      rw [hcommand] at hf
      rcases hop with ⟨f', hf', hphase⟩ | ⟨⟨r, hr⟩, _⟩
      · -- It is the client's own connection, still at its read.
        have hown : c.origin = id := by
          cases hparent : c.parent with
          | none => exact hcalm.basic.own id c hc hparent
          | some p =>
              rcases hcalm.basic.carries id c p hc hparent with ⟨r, hr⟩
              cases hr.symm.trans hf'
        rw [hown] at hd
        cases hc.symm.trans hd
        exact hread f' hphase
      · cases hr.symm.trans hf

/-- The last node looks a name up. -/
theorem Ordered.read (h : Ordered net nodes tr s L) (hcalm : Calm net nodes s)
    (hc : s.conns id = some c) {f : Bytes} (hphase : c.phase = .reading f) :
    ∃ L', Ordered net nodes (tr ++ [(s, .serve id)])
      (s.setPhase id c
        (.replied (MetadataNode.lookupMessage (storedAt nodes s.log c.node f)))) L' := by
  -- The handler that reads is that of a `GET`, on the client's own connection, at the last node.
  have hop : request c.command = some (.get f) := by
    have hfit := hcalm.flow.fitting id c hc
    cases hreq : request c.command with
    | none => simp [Fitting, hreq, hphase] at hfit
    | some op =>
        cases op with
        | put r => simp [Fitting, hreq, hphase, Phase.Active] at hfit
        | get f' =>
            simp only [Fitting, hreq, hphase, reduceCtorEq, Phase.reading.injEq, exists_false,
              or_false, false_or] at hfit
            rw [hfit]
  have hparent : c.parent = none := by
    cases hp : c.parent with
    | none => rfl
    | some p =>
        rcases hcalm.basic.carries id c p hc hp with ⟨r, hr⟩
        cases hr.symm.trans hop
  have hown : c.origin = id := hcalm.basic.own id c hc hparent
  have hlast : c.node = net.size - 1 := by
    have := hcalm.wires.reading id c f hc hphase
    omega
  have hfresh : id ∉ L.map Entry.id :=
    hown ▸ h.not_mem hcalm hc (Or.inl ⟨f, hop, hphase⟩)
  -- It takes effect now, with the store of the last node.
  have hbuilt := h.built.effect id (.get f) (h.called id c _ hc hparent hop) hfresh
  have hres : ((kv (nodes (net.size - 1)).metadataStore).apply
        (replay (kv (nodes (net.size - 1)).metadataStore)
          (nodes (net.size - 1)).metadataStore L) (.get f)).2 =
      MetadataNode.lookupMessage (storedAt nodes s.log c.node f) := by
    rw [h.state, hlast]
    rfl
  refine ⟨_, h.move hc (by simp) (by simp) hbuilt ?_ ?_ (fun e he => List.mem_append_left _ he)
    ?_ ?_ ?_⟩
  · rw [replay_concat]
    exact h.state
  · simp [puts]
  · intro e he r hr
    rcases List.mem_append.1 he with he | he
    · exact h.acks e he r hr
    · rw [List.mem_singleton.1 he] at hr
      cases hr
  · intro e he hnew f' hf'
    rcases List.mem_append.1 he with he | he
    · exact absurd he hnew
    · rw [List.mem_singleton.1 he] at hf' ⊢
      cases hf'
      exact ⟨rfl, hop, by simp⟩
  · intro op reply _ _ hreply _
    cases hreply
    exact ⟨_, List.mem_append_right _ (List.mem_singleton_self _), rfl, hres⟩

/-- A node stores a record; at the last node the `PUT` takes effect with it. -/
theorem Ordered.store (h : Ordered net nodes tr s L) (hcalm : Calm net nodes s)
    (hc : s.conns id = some c) (hphase : c.phase = .received) {r : FileMetadata}
    (hr : request c.command = some (.put r)) :
    ∃ L', Ordered net nodes (tr ++ [(s, .serve id)]) (s.storeRecord id c r) L' := by
  have hlog : (s.storeRecord id c r).log = s.log ++ [⟨c.node, c.origin, r⟩] := rfl
  have hkeep := @Ordered.keep net nodes s tr L id c h hc .stored (by simp) (by simp) (by simp)
  -- A `PUT` takes effect at the last node.
  by_cases hlast : c.node = net.size - 1
  · rcases hcalm.basic.root id c hc with ⟨cr, hcr, hparent, hcommand⟩
    have hcalled := h.called _ cr (Op.put r) hcr hparent (hcommand ▸ hr)
    have hfresh := h.not_mem hcalm hc (Or.inr ⟨⟨r, hr⟩, hphase, hlast⟩)
    refine ⟨_, history_serve ▸ h.built.effect c.origin (Op.put r) hcalled hfresh, ?_, ?_, ?_, ?_,
      ?_, hkeep.called, hkeep.known⟩
    · rw [replay_concat, hlog, storedAt_concat, if_pos hlast, h.state]
      rfl
    · rw [hlog, puts, List.filterMap_append, ← puts, h.applied]
      simp [appliedAt, hlast]
    · intro e he r' hr'
      rcases List.mem_append.1 he with he | he
      · exact h.acks e he r' hr'
      · rw [List.mem_singleton.1 he]
        rfl
    · intro e he f hf
      rcases List.mem_append.1 he with he | he
      · exact hkeep.gets e he f hf
      · rw [List.mem_singleton.1 he] at hf
        cases hf
    · intro k d op reply hd hp hop hreply hne
      rcases hkeep.answered k d op reply hd hp hop hreply hne with ⟨e, he, hrest⟩
      exact ⟨e, List.mem_append_left _ he, hrest⟩
  · -- Anywhere before, the store of the last node stays.
    refine ⟨L, hkeep.built, ?_, ?_, hkeep.acks, hkeep.gets, hkeep.answered, hkeep.called,
      hkeep.known⟩
    · rw [hlog, storedAt_concat, if_neg hlast, h.state]
    · rw [hlog, h.applied]
      simp [appliedAt, hlast]

theorem Ordered.forward (h : Ordered net nodes tr s L) (hbasic : Basic net nodes s)
    (hc : s.conns id = some c) (w : Nat) :
    Ordered net nodes (tr ++ [(s, .serve id)])
      ((s.setPhase id c (.waiting s.opened)).addConn (forwardConn id c w)) L := by
  have hkeep := @Ordered.keep net nodes s tr L id c h hc (.waiting s.opened) (by simp) (by simp)
    (by simp)
  refine ⟨hkeep.built, hkeep.state, hkeep.applied, hkeep.acks, ?_, ?_, ?_, ?_⟩
  · intro e he f hf
    rcases hkeep.gets e he f hf with ⟨d, hd, hrest⟩
    have hne : e.id ≠ s.opened := by
      rcases h.gets e he f hf with ⟨d', hd', _⟩
      exact (hbasic.opened _ d' hd').1.ne
    exact ⟨d, by simpa [hne] using hd, hrest⟩
  · intro k d op reply hd hparent hop hreply hne
    rcases addConn_conn hd with ⟨_, rfl⟩ | ⟨_, hd⟩
    · cases hparent
    · exact hkeep.answered k d op reply hd hparent hop hreply hne
  · intro k d op hd hparent hop
    rcases addConn_conn hd with ⟨_, rfl⟩ | ⟨_, hd⟩
    · cases hparent
    · exact hkeep.called k d op hd hparent hop
  · intro ev hev
    exact Nat.lt_succ_of_lt (hkeep.known ev hev)

theorem Ordered.take (h : Ordered net nodes tr s L) (hbasic : Basic net nodes s)
    (hc : s.conns id = some c) {reply : Bytes} (hphase : c.phase = .replied reply)
    (hparent : c.parent = none) :
    Ordered net nodes (tr ++ [(s, .take id)]) (s.setPhase id c .taken) L := by
  -- The return is recorded if the request is one and was not redirected.
  have hevent : history (tr ++ [(s, .take id)]) = history tr ∨
      ∃ e ∈ L, history (tr ++ [(s, .take id)]) = history tr ++ [.ret e.id e.res] ∧ e.id = id := by
    rw [history_concat]
    cases hop : request c.command with
    | none => exact Or.inl (by simp [event, hc, hop])
    | some op =>
        by_cases hredirect : reply = ascii "REDIRECT_TO_TAIL"
        · exact Or.inl (by simp [event, hc, hop, hphase, hredirect])
        · rcases h.answered id c op reply hc hparent hop hphase hredirect with ⟨e, he, hid, hres⟩
          exact Or.inr ⟨e, he, by simp [event, hc, hop, hphase, hredirect, hid, hres], hid⟩
  have hsub : ∀ ev ∈ history tr, ev ∈ history (tr ++ [(s, .take id)]) := by
    intro ev hev
    rw [history_concat]
    exact List.mem_append_left _ hev
  refine ⟨?_, h.state, h.applied, h.acks, ?_, ?_, ?_, ?_⟩
  · rcases hevent with heq | ⟨e, he, heq, _⟩
    · exact heq ▸ h.built
    · exact heq ▸ h.built.ret e he
  · intro e he f hf
    rcases h.gets e he f hf with ⟨d, hd, hop, hrec, hread⟩
    by_cases hk : e.id = id
    · rw [hk] at hd
      cases hc.symm.trans hd
      exact ⟨{ c with phase := .taken }, by simp [hk], hop, by simp, by simp⟩
    · exact ⟨d, by simpa [hk] using hd, hop, hrec, hread⟩
  · intro k d op reply' hd hp hop hreply hne
    rcases setPhase_conn hd with ⟨rfl, rfl⟩ | ⟨_, hd⟩
    · cases hreply
    · exact h.answered k d op reply' hd hp hop hreply hne
  · intro k d op hd hp hop
    rcases setPhase_conn hd with ⟨rfl, rfl⟩ | ⟨_, hd⟩
    · exact hsub _ (h.called k c op hc hp hop)
    · exact hsub _ (h.called k d op hd hp hop)
  · intro ev hev
    rcases hevent with heq | ⟨e, he, heq, hid⟩
    · rw [heq] at hev
      exact h.known ev hev
    · rw [heq] at hev
      rcases List.mem_append.1 hev with hev | hev
      · exact h.known ev hev
      · rw [List.mem_singleton.1 hev]
        exact hid ▸ (hbasic.opened id c hc).1

theorem Ordered.step (hwired : Wired net nodes) (h : Ordered net nodes tr s L)
    (hcalm : Calm net nodes s) (hcalm' : Calm net nodes s') (hstep : CalmStep net nodes s l s') :
    ∃ L', Ordered net nodes (tr ++ [(s, l)]) s' L' := by
  have hlast : net.size - 1 < net.size := Nat.sub_lt hwired.size_pos Nat.one_pos
  cases hstep with
  | connect v command _ _ => exact ⟨L, h.connect hcalm.basic v command⟩
  | move id c phase hc hmove =>
      -- An acknowledgement comes after the store at the last node.
      have hacked : c.phase.Active → ∀ op reply, c.parent = none → request c.command = some op →
          phase = .replied reply → ∃ e ∈ L, e.id = id ∧ e.res = reply := by
        intro hactive op reply hparent hop hreply
        rcases hcalm.basic.active id c hc hactive with ⟨r, hr⟩
        have hnew : (s.setPhase id c phase).conns id = some { c with phase := phase } := by simp
        have hack := hcalm'.answers.acked id _ r reply hnew hr hreply
        have happlied := hcalm'.answers.carried id _ r hnew hr (Or.inl ⟨reply, hreply⟩)
          (net.size - 1) (Nat.le_sub_one_of_lt (hcalm.basic.opened id c hc).2) hlast
        rcases h.mem_of_applied happlied with ⟨e, he, hid, hres⟩
        exact ⟨e, he, hid.trans (hcalm.basic.own id c hc hparent), hres.trans hack.symm⟩
      cases hmove with
      | badArgs hphase hop =>
          exact ⟨L, h.keep hc (by simp) (by simp) fun op _ _ hop' => by
            cases hop.symm.trans hop'⟩
      | redirect f hphase hop _ =>
          refine ⟨L, h.keep hc (by simp) (by simp) fun op reply _ _ hreply hne => ?_⟩
          simp only [Phase.replied.injEq] at hreply
          exact absurd hreply.symm hne
      | startRead f hphase hop _ => exact ⟨L, h.keep hc (by simp) (fun _ _ => hphase) (by simp)⟩
      | ignore hphase hop => exact ⟨L, h.keep hc (by simp) (by simp) (by simp)⟩
      | sendOn hphase _ => exact ⟨L, h.keep hc (by simp) (by simp) (by simp)⟩
      | ack hphase _ =>
          exact ⟨L, h.keep hc (by simp) (by simp) fun op reply hp hop hreply _ =>
            hacked (by simp [hphase, Phase.Active]) op reply hp hop hreply⟩
      | relay child cc reply hphase _ _ =>
          exact ⟨L, h.keep hc (by simp) (by simp) fun op reply' hp hop hreply _ =>
            hacked (by simp [hphase, Phase.Active]) op reply' hp hop hreply⟩
      | read f hphase => exact h.read hcalm hc hphase
  | store id c record hc hphase hr => exact h.store hcalm hc hphase hr
  | forward id c hc _ _ => exact ⟨L, h.forward hcalm.basic hc (c.node + 1)⟩
  | take id c reply hc hphase hparent => exact ⟨L, h.take hcalm.basic hc hphase hparent⟩

theorem ordered_run (hwired : Wired net nodes) {P : Chain → Label → Prop}
    (hfree : ∀ s l, P s l → FailureFree s l)
    (h : Run (Chain.step net) P (launch nodes) tr s) : ∃ L, Ordered net nodes tr s L := by
  induction h with
  | start => exact ⟨[], ordered_launch⟩
  | step hrun hP hs ih =>
      rcases ih with ⟨L, hL⟩
      have hcalm := Calm.run hwired hfree hrun
      have hstep := (step_cases hs).calm hwired hcalm.basic hcalm.wires (hfree _ _ hP)
      exact hL.step hwired hcalm (Calm.run hwired hfree (hrun.step hP hs)) hstep

theorem puts_filter {keep : Nat → Bool}
    (h : ∀ e ∈ L, ∀ r, e.op = .put r → keep e.id = true) :
    puts (L.filter fun e => keep e.id) = puts L := by
  induction L with
  | nil => rfl
  | cons e L ih =>
      have hrest := ih fun e' he' => h e' (by simp [he'])
      cases hkeep : keep e.id with
      | true =>
          simp only [List.filter_cons, hkeep, if_true, puts, List.filterMap_cons] at hrest ⊢
          rw [hrest]
      | false =>
          cases hop : e.op with
          | put r => simp [h e (by simp) r hop] at hkeep
          | get f =>
              simp only [List.filter_cons, hkeep, Bool.false_eq_true, if_false, puts,
                List.filterMap_cons, hop] at hrest ⊢
              exact hrest

/-- The history of the `PUT`s and of the answered `GET`s is linearizable, in the order in which the
last node stores records; a `PUT` is answered with `ACK` only, and only once every node from its
own to the last has stored exactly its record; no node stores it twice; and nothing else is ever
stored. -/
theorem chain_linearizable (hwired : Wired net nodes)
    (h : Run (Chain.step net) FailureFree (launch nodes) tr s) :
    (∃ L, Linearizes (kv (nodes (net.size - 1)).metadataStore)
        ((history tr).filter fun ev => counts (history tr) ev.id) L ∧
      puts L = appliedAt s.log (net.size - 1) ∧
      (s.nodes (net.size - 1)).metadataStore =
        replay (kv (nodes (net.size - 1)).metadataStore)
          (nodes (net.size - 1)).metadataStore L) ∧
    (∀ id c r, s.conns id = some c → request c.command = some (.put r) →
      (∃ reply, c.phase = .replied reply) ∨ c.phase = .taken →
      (∀ reply, c.phase = .replied reply → reply = ascii "ACK") ∧
        ∀ w, c.node ≤ w → w < net.size → ⟨w, c.origin, r⟩ ∈ s.log) ∧
    (s.log.map fun e => (e.node, e.origin)).Nodup ∧
    ∀ e ∈ s.log, Event.call e.origin (.put e.record) ∈ history tr := by
  have hcalm := Calm.run hwired (fun _ _ hfree => hfree) h
  rcases ordered_run hwired (fun _ _ hfree => hfree) h with ⟨L, hL⟩
  have hlin := hL.built.linearizes
  -- A `PUT` counts from its call on.
  have hputs : ∀ e ∈ L, ∀ r, e.op = .put r → counts (history tr) e.id = true := by
    intro e he r hop
    have hcall := hlin.called e he
    rw [hop] at hcall
    exact List.any_eq_true.2 ⟨_, hcall, by simp⟩
  have hreads : ∀ e ∈ L, counts (history tr) e.id = false →
      ∀ m, ((kv (nodes (net.size - 1)).metadataStore).apply m e.op).1 = m := by
    intro e he hcount m
    cases hop : e.op with
    | put r => simp [hputs e he r hop] at hcount
    | get f => rfl
  have hreturned : ∀ id res, Event.ret id res ∈ history tr → counts (history tr) id = true :=
    fun id res hret => List.any_eq_true.2 ⟨_, hret, by simp⟩
  refine ⟨⟨L.filter fun e => counts (history tr) e.id, hlin.filter _ hreads hreturned, ?_, ?_⟩,
    ?_, hcalm.answers.once, ?_⟩
  · rw [puts_filter hputs, hL.applied]
  · have hstore : (s.nodes (net.size - 1)).metadataStore = storedAt nodes s.log (net.size - 1) :=
      funext (hcalm.basic.store _)
    rw [hstore, ← hL.state]
    exact (replay_filter hreads).symm
  · intro id c r hc hr hdone
    exact ⟨fun reply hreply => hcalm.answers.acked id c r reply hc hr hreply,
      hcalm.answers.carried id c r hc hr hdone⟩
  · intro e he
    rcases hcalm.basic.source e he with ⟨k, d, hd, _, horigin, _, hr⟩
    rcases hcalm.basic.root k d hd with ⟨dr, hdr, hparent, hcommand⟩
    exact horigin ▸ hL.called _ dr _ hdr hparent (hcommand ▸ hr)

end

/-! ## A chain of two -/

/-- A `PUT` to the first of two nodes, with a `GET` at the last one that overlaps it. -/
def overlapping : List Label :=
  [.connect 0 (ascii "PUT a 1 2 3 r h"), .serve 0, .connect 1 (ascii "GET a"), .serve 1,
    .serve 0, .serve 0, .serve 2, .serve 1, .serve 2, .serve 0, .take 0, .take 1]

theorem chain_linearizable_local :
    let run := Run.replayed (Chain.step (localNet 2)) (launch (localNodes 2)) overlapping
    history run.1 = [.call 0 (.put ⟨ascii "a", ascii "r", 1, 2, 3, [ascii "h"]⟩),
        .call 1 (.get (ascii "a")), .ret 0 (ascii "ACK"), .ret 1 (ascii "FOUND 1 2 3 r h")] ∧
      ∃ L, Linearizes (kv (localNodes 2 1).metadataStore)
        ((history run.1).filter fun ev => counts (history run.1) ev.id) L := by
  intro run
  have hrun : Run (Chain.step (localNet 2)) FailureFree (launch (localNodes 2)) run.1 run.2 :=
    Run.of_labels (L := fun l => FailureFree (launch (localNodes 2)) l) (by decide +kernel)
      (by decide +kernel) fun _ l hl => by cases l <;> exact hl
  rcases (chain_linearizable (wired_local (by decide)) hrun).1 with ⟨L, hL, _⟩
  exact ⟨by decide +kernel, L, hL⟩

end Chain
end Metadata
end Dfs

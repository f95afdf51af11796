import Dfs.Metadata.Chain

/-!
# What every run of the chain keeps

However connections break and nodes crash: a connection carries the command of the client it
descends from, a handler that has passed the store has left an entry in the log, every entry comes
from such a handler, and the store of a node is what its entries make of it.
-/

namespace Dfs
namespace Metadata

open Bytes TextScan

/-! ## Requests -/

/-- What a client asks the chain to do. -/
inductive Op where
  | put (record : FileMetadata)
  | get (filename : Bytes)
  deriving DecidableEq

/-- The well-formed `PUT` and `GET` commands. -/
def request (command : Bytes) : Option Op :=
  match readWord command with
  | none => none
  | some (op, args) =>
      if op = ascii "PUT" then (MetadataNode.parsePut command).map .put
      else if op = ascii "GET" then (readWord args).map fun p => .get p.1
      else none

theorem request_eq_put {command : Bytes} {record : FileMetadata} (node : MetadataNode) :
    request command = some (.put record) ↔
      node.dispatch command = .put ∧ MetadataNode.parsePut command = some record := by
  rw [MetadataNode.dispatch_eq_put]
  cases hword : readWord command with
  | none => simp [request, hword]
  | some p =>
      rcases p with ⟨op, args⟩
      by_cases hput : op = ascii "PUT"
      · simp [request, hword, hput]
      · simp only [request, hword, if_neg hput]
        split <;> simp [hput]

theorem request_eq_get {command filename : Bytes} (node : MetadataNode) :
    request command = some (.get filename) ↔ node.dispatch command = .get filename := by
  have hne : ascii "GET" ≠ ascii "PUT" := by decide
  rw [MetadataNode.dispatch_eq_get]
  cases hword : readWord command with
  | none => simp [request, hword]
  | some p =>
      rcases p with ⟨op, args⟩
      by_cases hget : op = ascii "GET"
      · subst hget
        simp [request, hword, hne]
      · by_cases hput : op = ascii "PUT"
        · simp [request, hword, hput, hne.symm]
        · simp [request, hword, hput, hget]

/-! ## The stores and the log -/

/-- The last store at a node under a name. -/
def lastWrite (log : List Applied) (v : Nat) (filename : Bytes) : Option Applied :=
  (log.filter fun e => e.node = v ∧ e.record.filename = filename).getLast?

/-- What a node holds under a name after the stores of a log. -/
def storedAt (nodes : Nat → MetadataNode) (log : List Applied) (v : Nat) (filename : Bytes) :
    Option FileMetadata :=
  match lastWrite log v filename with
  | some e => some e.record
  | none => (nodes v).metadataStore filename

theorem lastWrite_concat (log : List Applied) (e : Applied) (v : Nat) (filename : Bytes) :
    lastWrite (log ++ [e]) v filename =
      if e.node = v ∧ e.record.filename = filename then some e else lastWrite log v filename := by
  by_cases h : e.node = v ∧ e.record.filename = filename
  · simp [lastWrite, List.filter_append, h]
  · simp [lastWrite, List.filter_append, h]

/-- A store at a node is one at that node only. -/
theorem storedAt_concat (nodes : Nat → MetadataNode) (log : List Applied) (e : Applied) (v : Nat) :
    storedAt nodes (log ++ [e]) v =
      if e.node = v then
        Function.update (storedAt nodes log v) e.record.filename (some e.record)
      else storedAt nodes log v := by
  funext f
  by_cases hv : e.node = v
  · by_cases hf : e.record.filename = f
    · subst hf
      simp [storedAt, lastWrite_concat, hv]
    · simp [storedAt, lastWrite_concat, hv, hf, Function.update_of_ne (Ne.symm hf)]
  · simp [storedAt, lastWrite_concat, hv]

theorem lastWrite_eq_some {log : List Applied} {v : Nat} {filename : Bytes} {e : Applied}
    (h : lastWrite log v filename = some e) :
    e ∈ log ∧ e.node = v ∧ e.record.filename = filename := by
  have hmem := List.mem_of_getLast? h
  simpa using List.mem_filter.1 hmem

theorem lastWrite_eq_none {log : List Applied} {v : Nat} {filename : Bytes} :
    lastWrite log v filename = none ↔
      ∀ e ∈ log, e.node = v → e.record.filename ≠ filename := by
  simp [lastWrite]

/-- No other store under the name comes after the last one. -/
theorem sublist_lastWrite {log : List Applied} {v : Nat} {filename : Bytes} {e a : Applied}
    (h : lastWrite log v filename = some e) (ha : a ∈ log) (hv : a.node = v)
    (hname : a.record.filename = filename) (hne : a ≠ e) : [a, e].Sublist log := by
  have hlast : (log.filter fun e => e.node = v ∧ e.record.filename = filename) =
      (log.filter fun e => e.node = v ∧ e.record.filename = filename).dropLast ++ [e] :=
    (List.dropLast_append_getLast? e h).symm
  have hmem : a ∈ log.filter fun e => e.node = v ∧ e.record.filename = filename := by
    simp [ha, hv, hname]
  rw [hlast] at hmem
  have hfirst : a ∈ (log.filter fun e => e.node = v ∧ e.record.filename = filename).dropLast := by
    simpa [hne] using hmem
  have hpair : [a, e].Sublist (log.filter fun e => e.node = v ∧ e.record.filename = filename) := by
    rw [hlast]
    exact (List.singleton_sublist.2 hfirst).append (List.Sublist.refl [e])
  exact hpair.trans List.filter_sublist

/-! ## Phases -/

/-- The handler has stored a record and not replied yet. -/
def Phase.Active : Phase → Prop
  | .stored => True
  | .forwarding => True
  | .waiting _ => True
  | _ => False

/-- The handler has forwarded its command over the given connection. -/
def Phase.Sent (child : Nat) : Phase → Prop
  | .waiting k => k = child
  | .replied _ => True
  | .taken => True
  | _ => False

namespace Chain

/-! ## Connections across a step -/

section Connections

variable {s : Chain} {id k : Nat} {c d : Conn} {phase : Phase}

theorem setPhase_conn (h : (s.setPhase id c phase).conns k = some d) :
    k = id ∧ d = { c with phase := phase } ∨ k ≠ id ∧ s.conns k = some d := by
  by_cases hk : k = id
  · subst hk
    simp only [setPhase_conns, Function.update_self, Option.some.injEq] at h
    exact Or.inl ⟨rfl, h.symm⟩
  · rw [setPhase_conns, Function.update_of_ne hk] at h
    exact Or.inr ⟨hk, h⟩

theorem addConn_conn (h : (s.addConn c).conns k = some d) :
    k = s.opened ∧ d = c ∨ k ≠ s.opened ∧ s.conns k = some d := by
  by_cases hk : k = s.opened
  · subst hk
    simp only [addConn_conns, Function.update_self, Option.some.injEq] at h
    exact Or.inl ⟨rfl, h.symm⟩
  · rw [addConn_conns, Function.update_of_ne hk] at h
    exact Or.inr ⟨hk, h⟩

/-- The connections of a state are there in another one, at most their phases and losses changed. -/
def Persist (s s' : Chain) : Prop :=
  ∀ k d, s.conns k = some d → ∃ phase lost, s'.conns k = some { d with phase := phase, lost := lost }

theorem Persist.refl (s : Chain) : Persist s s :=
  fun _ d h => ⟨d.phase, d.lost, h⟩

theorem Persist.trans {s s' s'' : Chain} (h : Persist s s') (h' : Persist s' s'') :
    Persist s s'' := by
  intro k d hd
  rcases h k d hd with ⟨phase, lost, hd'⟩
  rcases h' k _ hd' with ⟨phase', lost', hd''⟩
  exact ⟨phase', lost', hd''⟩

theorem persist_setPhase (hc : s.conns id = some c) : Persist s (s.setPhase id c phase) := by
  intro k d hd
  by_cases hk : k = id
  · subst hk
    cases hc.symm.trans hd
    exact ⟨phase, c.lost, by simp⟩
  · exact ⟨d.phase, d.lost, by simpa [hk] using hd⟩

theorem persist_addConn (hfresh : s.conns s.opened = none) : Persist s (s.addConn c) := by
  intro k d hd
  have hk : k ≠ s.opened := by
    rintro rfl
    cases hfresh.symm.trans hd
  exact ⟨d.phase, d.lost, by simpa [hk] using hd⟩

/-- A connection is lost, and every other one is as before. -/
theorem lose_conn (hc : s.conns id = some c)
    (h : Function.update s.conns id (some { c with lost := true }) k = some d) :
    ∃ d', s.conns k = some d' ∧ d = { d' with lost := d.lost } := by
  by_cases hk : k = id
  · subst hk
    rw [Function.update_self, Option.some.injEq] at h
    subst h
    exact ⟨c, hc, rfl⟩
  · rw [Function.update_of_ne hk] at h
    exact ⟨d, h, rfl⟩

theorem persist_lose (hc : s.conns id = some c) (hd : s.conns k = some d) :
    ∃ lost, Function.update s.conns id (some { c with lost := true }) k =
      some { d with lost := lost } := by
  by_cases hk : k = id
  · subst hk
    cases hc.symm.trans hd
    exact ⟨true, Function.update_self ..⟩
  · exact ⟨d.lost, by rw [Function.update_of_ne hk]; exact hd⟩

end Connections

/-! ## What a step does to the connections -/

section Steps

variable {net : Network} {s s' : Chain} {l : Label}

/-- What a step to `s'` makes of the phase of a connection. -/
inductive Evolves (net : Network) (s s' : Chain) (c : Conn) : Phase → Prop where
  | same : Evolves net s s' c c.phase
  | move (phase : Phase) : Moves net s c phase → Evolves net s s' c phase
  | store (record : FileMetadata) : c.phase = .received →
      request c.command = some (.put record) → Evolves net s s' c .stored
  | respond (reply : Bytes) : c.phase = .received →
      (s.nodes c.node).dispatch c.command = .respond (s'.nodes c.node) reply →
      Evolves net s s' c (.replied reply)
  | forward (k : Nat) : c.phase = .forwarding → Evolves net s s' c (.waiting k)
  | refuse : c.phase = .forwarding → Evolves net s s' c (.replied (ascii "ERROR_FORWARD"))
  | take (reply : Bytes) : c.phase = .replied reply → Evolves net s s' c .taken

/-- How a connection comes into being. -/
inductive Opens (net : Network) (s : Chain) : Label → Conn → Prop where
  | client (v : Nat) (command : Bytes) : v < net.size →
      Opens net s (.connect v command)
        { node := v
          command := command
          parent := none
          origin := s.opened
          phase := .received
          lost := false }
  | forward (id : Nat) (c : Conn) (w : Nat) : s.conns id = some c → c.phase = .forwarding →
      s.nextUp net c.node = some w → Opens net s (.serve id) (forwardConn id c w)
  | notice (v : Nat) (node : MetadataNode) (message : Bytes) (w : Nat) :
      s.suspected v = true → (s.nodes v).handleNextNodeFailure = (node, some message) →
      Opens net s (.recover v)
        { node := w
          command := message
          parent := none
          origin := s.opened
          phase := .received
          lost := true }

/-- The record of a `PUT` is in the log. -/
def Logged (s : Chain) (c : Conn) : Prop :=
  ∀ r, request c.command = some (.put r) → ⟨c.node, c.origin, r⟩ ∈ s.log

/-- The moves on a command are those of the commands that store nothing. -/
theorem Moves.not_put {c : Conn} {phase : Phase} (h : Moves net s c phase)
    (hphase : c.phase = .received) (r : FileMetadata) : request c.command ≠ some (.put r) := by
  intro hr
  have hput := (request_eq_put (s.nodes c.node)).1 hr
  cases h with
  | close _ hdispatch => cases hput.1.symm.trans hdispatch
  | badArgs _ _ hparse => cases hput.2.symm.trans hparse
  | redirect _ _ hdispatch _ => cases hput.1.symm.trans hdispatch
  | startRead _ _ hdispatch _ => cases hput.1.symm.trans hdispatch
  | ignore _ hdispatch => cases hput.1.symm.trans hdispatch
  | sendOn hother _ => cases hphase.symm.trans hother
  | ack hother _ => cases hphase.symm.trans hother
  | noNext hother _ => cases hphase.symm.trans hother
  | relay _ _ _ hother _ _ => cases hphase.symm.trans hother
  | read _ hother => cases hphase.symm.trans hother

/-- A connection that a step opens. -/
structure Fresh (net : Network) (s s' : Chain) (l : Label) (k : Nat) (d : Conn) : Prop where
  id : k = s.opened
  opened : s'.opened = s.opened + 1
  node : d.node < net.size
  opens : Opens net s l d
  forwards : ∀ p c, d.parent = some p → s.conns p = some c →
    s' = (s.setPhase p c (.waiting s.opened)).addConn d

/-- Connection `k`, which is `d` before a step and `d'` after it. -/
structure Kept (net : Network) (s s' : Chain) (k : Nat) (d d' : Conn) : Prop where
  node : d'.node = d.node
  command : d'.command = d.command
  parent : d'.parent = d.parent
  origin : d'.origin = d.origin
  evolves : Evolves net s s' d d'.phase
  logged : d.phase = .received → d'.phase = .received ∨ s'.Logged d
  waits : ∀ j, d'.phase = .waiting j → d.phase = .waiting j ∨
    ∃ dj, s'.conns j = some dj ∧ dj.parent = some k

theorem Step.conn_cases (h : Step net s l s') {k : Nat} {d : Conn} (hd : s'.conns k = some d) :
    Fresh net s s' l k d ∨ ∃ d', s.conns k = some d' ∧ Kept net s s' k d' d := by
  have hsame : ∀ {d' : Conn}, s.conns k = some d' →
      ∃ d'', s.conns k = some d'' ∧ Kept net s s' k d'' d' :=
    fun {d'} hd' => ⟨d', hd', rfl, rfl, rfl, rfl, .same, Or.inl, fun _ => Or.inl⟩
  have hphase : ∀ {id : Nat} {c : Conn} {phase : Phase}, s.conns id = some c →
      Evolves net s s' c phase → (c.phase = .received → s'.Logged c) →
      (∀ j, phase = .waiting j → ∃ dj, s'.conns j = some dj ∧ dj.parent = some id) →
      (s.setPhase id c phase).conns k = some d →
      ∃ d', s.conns k = some d' ∧ Kept net s s' k d' d := by
    intro id c phase hc hevolves hlogged hwaits hd
    rcases setPhase_conn hd with ⟨rfl, rfl⟩ | ⟨_, hd⟩
    · exact ⟨c, hc, rfl, rfl, rfl, rfl, hevolves, fun hreceived => Or.inr (hlogged hreceived),
        fun j hj => Or.inr (hwaits j hj)⟩
    · exact hsame hd
  cases h with
  | connect v command hv _ _ =>
      rcases addConn_conn hd with ⟨rfl, rfl⟩ | ⟨_, hd⟩
      · exact Or.inl ⟨rfl, rfl, hv, .client v command hv, by simp⟩
      · exact Or.inr (hsame hd)
  | move id c phase hc _ hmove =>
      refine Or.inr (hphase hc (.move phase hmove) (fun hreceived r hr => ?_) (fun j hj => ?_) hd)
      · exact absurd hr (hmove.not_put hreceived r)
      · cases hmove <;> cases hj
  | store id c record hc _ hreceived hdispatch hparse =>
      have hr := (request_eq_put _).2 ⟨hdispatch, hparse⟩
      refine Or.inr (hphase hc (.store record hreceived hr) (fun _ r hr' => ?_) (by simp) hd)
      cases hr.symm.trans hr'
      exact List.mem_append_right _ (List.mem_singleton_self _)
  | respond id c node reply hc _ hreceived hdispatch =>
      refine Or.inr (hphase hc (.respond reply hreceived ?_) (fun _ r hr => ?_) (by simp) hd)
      · simpa using hdispatch
      · cases hdispatch.symm.trans ((request_eq_put _).1 hr).1
  | forward id c w hc _ hforwarding hw =>
      rcases addConn_conn hd with ⟨rfl, rfl⟩ | ⟨_, hd⟩
      · refine Or.inl ⟨rfl, rfl, (nextUp_eq_some hw).2.1, .forward id c w hc hforwarding hw, ?_⟩
        rintro p c' hp hc'
        cases hp
        cases hc.symm.trans hc'
        rfl
      · refine Or.inr (hphase hc (.forward _ hforwarding) (by simp [hforwarding]) ?_ hd)
        rintro j ⟨⟩
        exact ⟨forwardConn id c w, by simp, rfl⟩
  | refuse id c hc _ hforwarding =>
      exact Or.inr (hphase hc (.refuse hforwarding) (by simp [hforwarding]) (by simp) hd)
  | lose id c hc =>
      rcases lose_conn hc hd with ⟨d', hd', heq⟩
      rw [heq]
      exact Or.inr ⟨d', hd', rfl, rfl, rfl, rfl, .same, Or.inl, fun _ => Or.inl⟩
  | take id c reply hc hreplied _ _ =>
      exact Or.inr (hphase hc (.take reply hreplied) (by simp [hreplied]) (by simp) hd)
  | notify v node message w _ hsuspected hrecover hw =>
      rcases addConn_conn hd with ⟨rfl, rfl⟩ | ⟨_, hd⟩
      · exact Or.inl ⟨rfl, rfl, hw, .notice v node message w hsuspected hrecover, by simp⟩
      · exact Or.inr (hsame hd)
  | _ => exact Or.inr (hsame hd)

/-- A connection after a step: it is new, or an old one with another phase. -/
theorem Step.conn (h : Step net s l s') {k : Nat} {d : Conn} (hd : s'.conns k = some d) :
    k = s.opened ∧ Opens net s l d ∨
      ∃ d', s.conns k = some d' ∧ d.node = d'.node ∧ d.command = d'.command ∧
        d.parent = d'.parent ∧ d.origin = d'.origin ∧ Evolves net s s' d' d.phase := by
  rcases h.conn_cases hd with hnew | ⟨d', hd', hkept⟩
  · exact Or.inl ⟨hnew.id, hnew.opens⟩
  · exact Or.inr ⟨d', hd', hkept.node, hkept.command, hkept.parent, hkept.origin, hkept.evolves⟩

/-- A handler that has forwarded its command stays behind that. -/
theorem Evolves.sent {c : Conn} {phase : Phase} (h : Evolves net s s' c phase) {k : Nat}
    (hsent : c.phase.Sent k) : phase.Sent k := by
  cases h with
  | same => exact hsent
  | move _ hmove =>
      cases hmove with
      | close hphase _ => simp [hphase, Phase.Sent] at hsent
      | startRead _ hphase _ _ => simp [hphase, Phase.Sent] at hsent
      | ignore hphase _ => simp [hphase, Phase.Sent] at hsent
      | sendOn hphase _ => simp [hphase, Phase.Sent] at hsent
      | _ => trivial
  | store _ hphase _ => simp [hphase, Phase.Sent] at hsent
  | respond _ _ _ => trivial
  | forward _ hphase => simp [hphase, Phase.Sent] at hsent
  | refuse _ => trivial
  | take _ _ => trivial

/-- No handler goes back to its command. -/
theorem Evolves.received {c : Conn} (h : Evolves net s s' c .received) : c.phase = .received := by
  generalize hphase : Phase.received = phase at h
  cases h with
  | same => rfl
  | move _ hmove => cases hmove <;> cases hphase
  | _ => cases hphase

/-- Only a handler that stores a record becomes active. -/
theorem Evolves.active {c : Conn} {phase : Phase} (h : Evolves net s s' c phase)
    (hactive : phase.Active) : c.phase.Active ∨ ∃ r, request c.command = some (.put r) := by
  cases h with
  | same => exact Or.inl hactive
  | move _ hmove =>
      cases hmove with
      | sendOn hphase _ => exact Or.inl (hphase ▸ trivial)
      | _ => cases hactive
  | store r _ hr => exact Or.inr ⟨r, hr⟩
  | forward _ hphase => exact Or.inl (hphase ▸ trivial)
  | _ => cases hactive


/-- No store is undone. -/
theorem Step.log_sublist (h : Step net s l s') : s.log.Sublist s'.log := by
  cases h with
  | store => exact List.sublist_append_left _ _
  | _ => exact List.Sublist.refl _

theorem Step.log_isPrefix (h : Step net s l s') : s.log <+: s'.log := by
  cases h with
  | store => exact List.prefix_append _ _
  | _ => exact List.prefix_refl _

theorem Step.opened_le (h : Step net s l s') : s.opened ≤ s'.opened := by
  cases h <;> simp [Chain.storeRecord]

end Steps

/-! ## The invariant -/

/-- `nodes` are the nodes as they were launched. -/
structure Basic (net : Network) (nodes : Nat → MetadataNode) (s : Chain) : Prop where
  opened : ∀ id c, s.conns id = some c → id < s.opened ∧ c.node < net.size
  forwarded : ∀ id c p, s.conns id = some c → c.parent = some p →
    ∃ cp, s.conns p = some cp ∧ cp.command = c.command ∧ cp.origin = c.origin ∧ cp.phase.Sent id
  root : ∀ id c, s.conns id = some c → ∃ cr, s.conns c.origin = some cr ∧ cr.parent = none ∧
    cr.command = c.command
  own : ∀ id c, s.conns id = some c → c.parent = none → c.origin = id
  active : ∀ id c, s.conns id = some c → c.phase.Active → ∃ r, request c.command = some (.put r)
  carries : ∀ id c p, s.conns id = some c → c.parent = some p →
    ∃ r, request c.command = some (.put r)
  logged : ∀ id c r, s.conns id = some c → request c.command = some (.put r) →
    c.phase ≠ .received → ⟨c.node, c.origin, r⟩ ∈ s.log
  source : ∀ e ∈ s.log, ∃ id c, s.conns id = some c ∧ c.node = e.node ∧ c.origin = e.origin ∧
    c.phase ≠ .received ∧ request c.command = some (.put e.record)
  store : ∀ v f, (s.nodes v).metadataStore f = storedAt nodes s.log v f

section Preserved

variable {net : Network} {nodes : Nat → MetadataNode} {s s' : Chain} {l : Label} {id : Nat}
  {c : Conn}

theorem Basic.fresh (h : Basic net nodes s) : s.conns s.opened = none := by
  cases hc : s.conns s.opened with
  | none => rfl
  | some c => exact absurd (h.opened _ _ hc).1 (lt_irrefl _)

theorem basic_launch : Basic net nodes (launch nodes) where
  opened := by simp [launch]
  forwarded := by simp [launch]
  root := by simp [launch]
  own := by simp [launch]
  active := by simp [launch]
  carries := by simp [launch]
  logged := by simp [launch]
  source := by simp [launch]
  store := by simp [launch, storedAt, lastWrite]

/-- The connections of a state stay. -/
theorem Step.persist (h : Step net s l s') (hbasic : Basic net nodes s) : Persist s s' := by
  cases h with
  | connect => exact persist_addConn hbasic.fresh
  | move id c phase hc _ _ => exact persist_setPhase hc
  | store id c record hc _ _ _ _ => exact @persist_setPhase s id c .stored hc
  | respond id c node reply hc _ _ _ => exact @persist_setPhase s id c (.replied reply) hc
  | forward id c w hc _ _ _ =>
      have hwaiting : Persist s (s.setPhase id c (.waiting s.opened)) := persist_setPhase hc
      refine hwaiting.trans (persist_addConn ?_)
      have hid : s.opened ≠ id := (hbasic.opened id c hc).1.ne'
      simpa [hid] using hbasic.fresh
  | refuse id c hc _ _ => exact persist_setPhase hc
  | lose id c hc =>
      intro k d hd
      rcases persist_lose hc hd with ⟨lost, hd'⟩
      exact ⟨d.phase, lost, hd'⟩
  | take id c reply hc _ _ _ => exact persist_setPhase hc
  | crash => exact Persist.refl s
  | pingFails => exact Persist.refl s
  | recover => exact Persist.refl s
  | notify => exact persist_addConn hbasic.fresh

/-- What becomes of a connection. -/
theorem Step.evolves (h : Step net s l s') (hbasic : Basic net nodes s)
    (hc : s.conns id = some c) :
    ∃ phase lost, s'.conns id = some { c with phase := phase, lost := lost } ∧
      Evolves net s s' c phase := by
  rcases h.persist hbasic id c hc with ⟨phase, lost, hc'⟩
  -- An identifier in use is not given again.
  rcases h.conn hc' with ⟨hnew, _⟩ | ⟨d, hd, _, _, _, _, hevolves⟩
  · exact absurd (hbasic.opened id c hc).1 (hnew ▸ lt_irrefl _)
  · cases hc.symm.trans hd
    exact ⟨phase, lost, hc', hevolves⟩

/-- A handler that waits goes on having its connection. -/
theorem Step.waiting (h : Step net s l s') (hbasic : Basic net nodes s)
    (hwaiting : ∀ id c k, s.conns id = some c → c.phase = .waiting k →
      ∃ ck, s.conns k = some ck ∧ ck.parent = some id) :
    ∀ id c k, s'.conns id = some c → c.phase = .waiting k →
      ∃ ck, s'.conns k = some ck ∧ ck.parent = some id := by
  intro id c k hc hphase
  rcases h.conn_cases hc with hnew | ⟨c', hc', hkept⟩
  · cases hnew.opens <;> cases hphase
  · rcases hkept.waits k hphase with hold | hopened
    · rcases hwaiting id c' k hc' hold with ⟨ck, hck, hparent⟩
      rcases h.persist hbasic k ck hck with ⟨_, _, hck'⟩
      exact ⟨_, hck', hparent⟩
    · exact hopened

/-! ## The stores across a step -/

theorem store_of_respond {node node' : MetadataNode} {command reply : Bytes}
    (h : node.dispatch command = .respond node' reply) :
    node'.metadataStore = node.metadataStore := by
  -- The three commands that change links leave the store.
  have hreconfigure : ∀ (args : Bytes) (update : MetadataNode → Bytes → Int → MetadataNode),
      (∀ ip port, (update node ip port).metadataStore = node.metadataStore) →
      node.reconfigure args update = .respond node' reply →
      node'.metadataStore = node.metadataStore := by
    intro args update hupdate hrec
    unfold MetadataNode.reconfigure at hrec
    split at hrec
    · cases hrec
    · split at hrec
      · cases hrec
      · cases hrec
        exact hupdate _ _
  -- The commands in the order in which `handleClient` tests them.
  unfold MetadataNode.dispatch at h
  split at h
  · cases h
  · simp only at h
    split at h
    · cases h
    split at h
    · split at h <;> cases h
    split at h
    · cases h
      rfl
    split at h
    · exact hreconfigure _ _ (fun _ _ => rfl) h
    split at h
    · exact hreconfigure _ _ (fun _ _ => rfl) h
    split at h
    · exact hreconfigure _ _ (fun _ _ => rfl) h
    split at h
    · cases h
      rfl
    split at h
    · cases h
    · cases h
      rfl

theorem store_handleNextNodeFailure (node : MetadataNode) :
    node.handleNextNodeFailure.1.metadataStore = node.metadataStore := by
  unfold MetadataNode.handleNextNodeFailure
  split <;> rfl

/-- A step stores one record, with an entry in the log, or no store changes. -/
theorem Step.stores (h : Step net s l s') :
    (∃ id c r, s.conns id = some c ∧ request c.command = some (.put r) ∧
        s' = s.storeRecord id c r) ∨
      s'.log = s.log ∧ ∀ v, (s'.nodes v).metadataStore = (s.nodes v).metadataStore := by
  -- Setting a node that holds the same records.
  have hset : ∀ v node, node.metadataStore = (s.nodes v).metadataStore →
      ∀ w, ((s.setNode v node).nodes w).metadataStore = (s.nodes w).metadataStore := by
    intro v node hnode w
    by_cases hw : w = v
    · subst hw
      simpa using hnode
    · simp [hw]
  cases h with
  | store id c record hc _ _ hdispatch hparse =>
      exact Or.inl ⟨id, c, record, hc, (request_eq_put _).2 ⟨hdispatch, hparse⟩, rfl⟩
  | respond id c node reply _ _ _ hdispatch =>
      exact Or.inr ⟨rfl, hset c.node node (store_of_respond hdispatch)⟩
  | recover v node message _ _ hnext =>
      have hstore := store_handleNextNodeFailure (s.nodes v)
      rw [hnext] at hstore
      exact Or.inr ⟨rfl, hset v node hstore⟩
  | notify v node message w _ _ hnext _ =>
      have hstore := store_handleNextNodeFailure (s.nodes v)
      rw [hnext] at hstore
      exact Or.inr ⟨rfl, hset v node hstore⟩
  | _ => exact Or.inr ⟨rfl, fun _ => rfl⟩

theorem Basic.step (h : Basic net nodes s) (hstep : Step net s l s') : Basic net nodes s' where
  opened := by
    intro k d hd
    rcases hstep.conn_cases hd with hnew | ⟨d', hd', hkept⟩
    · rw [hnew.id, hnew.opened]
      exact ⟨Nat.lt_succ_self _, hnew.node⟩
    · rw [hkept.node]
      exact ⟨(h.opened k d' hd').1.trans_le hstep.opened_le, (h.opened k d' hd').2⟩
  forwarded := by
    intro k d p hd hp
    rcases hstep.conn_cases hd with hnew | ⟨d', hd', hkept⟩
    · have hforwards := hnew.forwards p
      rcases hnew with ⟨rfl, _, _, hopens, _⟩
      cases hopens with
      | forward id c w hc _ _ =>
          -- The handler now waits for the reply over the new connection.
          cases hp
          have hid : p ≠ s.opened := (h.opened p c hc).1.ne
          have hcp : s'.conns p = some { c with phase := .waiting s.opened } := by
            rw [hforwards c rfl hc]
            simp [hid]
          exact ⟨_, hcp, rfl, rfl, rfl⟩
      | client v command _ => cases hp
      | notice v node message w _ _ => cases hp
    · rw [hkept.parent] at hp
      rw [hkept.command, hkept.origin]
      rcases h.forwarded k d' p hd' hp with ⟨cp, hcp, hcommand, horigin, hsent⟩
      rcases hstep.evolves h hcp with ⟨phase, lost, hcp', hevolves⟩
      exact ⟨_, hcp', hcommand, horigin, hevolves.sent hsent⟩
  root := by
    intro k d hd
    rcases hstep.conn hd with ⟨rfl, hopens⟩ | ⟨d', hd', _, hcommand, _, horigin, _⟩
    · cases hopens with
      | forward id c w hc _ _ =>
          rcases h.root id c hc with ⟨cr, hcr, hrest⟩
          rcases hstep.persist h _ cr hcr with ⟨_, _, hcr'⟩
          exact ⟨_, hcr', hrest⟩
      | client v command _ => exact ⟨_, hd, rfl, rfl⟩
      | notice v node message w _ _ => exact ⟨_, hd, rfl, rfl⟩
    · rcases h.root k d' hd' with ⟨cr, hcr, hparent, hcmd⟩
      rcases hstep.persist h _ cr hcr with ⟨_, _, hcr'⟩
      rw [horigin, hcommand]
      exact ⟨_, hcr', hparent, hcmd⟩
  own := by
    intro k d hd hnone
    rcases hstep.conn hd with ⟨rfl, hopens⟩ | ⟨d', hd', _, _, hparent, horigin, _⟩
    · cases hopens with
      | forward id c w _ _ _ => cases hnone
      | client v command _ => rfl
      | notice v node message w _ _ => rfl
    · exact horigin.trans (h.own k d' hd' (hparent ▸ hnone))
  active := by
    intro k d hd hactive
    rcases hstep.conn hd with ⟨_, hopens⟩ | ⟨d', hd', _, hcommand, _, _, hevolves⟩
    · cases hopens <;> cases hactive
    · rw [hcommand]
      rcases hevolves.active hactive with hold | hput
      · exact h.active k d' hd' hold
      · exact hput
  carries := by
    intro k d p hd hp
    rcases hstep.conn hd with ⟨_, hopens⟩ | ⟨d', hd', _, hcommand, hparent, _⟩
    · cases hopens with
      | forward id c w hc hphase _ => exact h.active id c hc (hphase ▸ trivial)
      | client v command _ => cases hp
      | notice v node message w _ _ => cases hp
    · rw [hcommand]
      exact h.carries k d' p hd' (hparent ▸ hp)
  logged := by
    intro k d r hd hr hne
    rcases hstep.conn_cases hd with hnew | ⟨d', hd', hkept⟩
    · cases hnew.opens <;> exact absurd rfl hne
    · rw [hkept.node, hkept.origin]
      rw [hkept.command] at hr
      by_cases hold : d'.phase = .received
      · exact (hkept.logged hold).resolve_left hne r hr
      · exact hstep.log_sublist.subset (h.logged k d' r hd' hr hold)
  source := by
    intro e he
    have hkept : e ∈ s.log → ∃ id c, s'.conns id = some c ∧ c.node = e.node ∧
        c.origin = e.origin ∧ c.phase ≠ .received ∧
        request c.command = some (.put e.record) := by
      intro hold
      rcases h.source e hold with ⟨k, d, hd, hnode, horigin, hne, hr⟩
      rcases hstep.evolves h hd with ⟨phase, lost, hd', hevolves⟩
      refine ⟨k, _, hd', hnode, horigin, ?_, hr⟩
      rintro rfl
      exact hne hevolves.received
    -- The entry is an old one, or that of the store in this step.
    rcases hstep.stores with ⟨id, c, r, hc, hr, rfl⟩ | ⟨hlog, _⟩
    · rcases List.mem_append.1 he with hold | hnew
      · exact hkept hold
      · rw [List.mem_singleton.1 hnew]
        exact ⟨id, { c with phase := .stored }, by simp [Chain.storeRecord], rfl, rfl, by simp, hr⟩
    · exact hkept (hlog ▸ he)
  store := by
    intro v f
    have hstore : (s.nodes v).metadataStore = storedAt nodes s.log v := funext (h.store v)
    rcases hstep.stores with ⟨id, c, r, _, _, rfl⟩ | ⟨hlog, hsame⟩
    · have hlog : (s.storeRecord id c r).log = s.log ++ [⟨c.node, c.origin, r⟩] := rfl
      have hnodes : (s.storeRecord id c r).nodes =
          Function.update s.nodes c.node ((s.nodes c.node).storeMetadata r) := rfl
      rw [hlog, hnodes, storedAt_concat]
      by_cases hv : c.node = v
      · subst hv
        simp [hstore]
      · simp [hv, Ne.symm hv, hstore]
    · rw [hlog, hsame]
      exact h.store v f

theorem Basic.run {P : Chain → Label → Prop} {tr : List (Chain × Label)}
    (h : Run (Chain.step net) P (launch nodes) tr s) : Basic net nodes s :=
  h.state_invariant basic_launch fun _ _ _ _ _ hI _ hs => hI.step (step_cases hs)

/-- The record that a node holds was put by a client, unless the node was launched with it. -/
theorem Basic.stored (h : Basic net nodes s) {v : Nat} {f : Bytes} {r : FileMetadata}
    (hr : (s.nodes v).metadataStore f = some r) :
    (nodes v).metadataStore f = some r ∨
      ∃ e, lastWrite s.log v f = some e ∧ e.record = r := by
  rw [h.store, storedAt] at hr
  cases hlast : lastWrite s.log v f with
  | none => exact Or.inl (by simpa [hlast] using hr)
  | some e => exact Or.inr ⟨e, rfl, by simpa [hlast] using hr⟩

end Preserved

end Chain
end Metadata
end Dfs

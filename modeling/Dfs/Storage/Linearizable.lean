import Dfs.Storage.Server

/-!
# A storage node is a linearizable map of complete blobs

A `STORE` takes effect when its handler updates `storage_`, a `GET` when its handler looks the hash
up.  The order of these accesses linearizes what the handlers of all connections answer.
-/

namespace Dfs
namespace Storage

open Bytes TextScan Network Linearization

/-- An operation of a client; a `STORE` is one once its data frame has been received whole. -/
inductive Op where
  | store (hash data : Bytes)
  | get (hash : Bytes)
  deriving DecidableEq

/-- What a client is told: `ACK`, `FOUND` with the data frame behind it, or `NOT_FOUND`. -/
inductive Answer where
  | ack
  | found (data : Bytes)
  | notFound
  deriving DecidableEq

def answer : Option Bytes → Answer
  | none => .notFound
  | some data => .found data

/-- The map from hashes to blobs, as one object. -/
def blobs : Spec (Bytes → Option Bytes) Op Answer where
  init := fun _ => none
  apply := fun m op =>
    match op with
    | .store hash data => (Function.update m hash (some data), .ack)
    | .get hash => (m, answer (m hash))

/-- The data of the last `STORE` of a hash. -/
def lastStore (L : List (Entry Op Answer)) (hash : Bytes) : Option Bytes :=
  (L.filterMap fun e =>
    match e.op with
    | .store hash' data => if hash' = hash then some data else none
    | .get _ => none).getLast?

@[simp] theorem blobs_store (m : Bytes → Option Bytes) (hash data : Bytes) :
    blobs.apply m (.store hash data) = (Function.update m hash (some data), .ack) := rfl

@[simp] theorem blobs_get (m : Bytes → Option Bytes) (hash : Bytes) :
    blobs.apply m (.get hash) = (m, answer (m hash)) := rfl

theorem replay_eq_lastStore (L : List (Entry Op Answer)) (hash : Bytes) :
    replay blobs blobs.init L hash = lastStore L hash := by
  induction L using List.reverseRecOn with
  | nil => rfl
  | append_singleton L e ih =>
      rw [replay_concat]
      cases hop : e.op with
      | store hash' data =>
          by_cases hhash : hash' = hash
          · subst hhash
            simp [lastStore, hop]
          · have hne : hash ≠ hash' := fun heq => hhash heq.symm
            simp only [blobs_store, Function.update_of_ne hne, ih]
            simp [lastStore, hop, hhash]
      | get hash' =>
          simp only [blobs_get, ih]
          simp [lastStore, hop]

namespace Server

/-! ## Histories -/

/-- The identity of the `k`-th command of a connection. -/
def tag (id k : Nat) : Nat :=
  Nat.pair id k

theorem tag_inj {id id' k k' : Nat} : tag id k = tag id' k' ↔ id = id' ∧ k = k' := by
  simp [tag]

/-- What a step adds to the history: a `GET` or the data frame of a `STORE` is received, or an
answer goes out. -/
def event (e : Server × Label) : Option (Event Op Answer) :=
  match e.2 with
  | .handle id =>
      (e.1.conns id).bind fun c =>
        match c.handler with
        | .reading =>
            match afterCommand e.1.node (recvData c.inbound).1 with
            | .lookup hash => some (.call (tag id (c.received + 1)) (.get hash))
            | _ => none
        | .awaitData hash =>
            match (recvData c.inbound).1 with
            | [] => none
            | data => some (.call (tag id c.received) (.store hash data))
        | .ack _ _ => if c.connected then some (.ret (tag id c.received) .ack) else none
        | .foundData _ data =>
            if c.connected then some (.ret (tag id c.received) (.found data)) else none
        | .notFound _ => if c.connected then some (.ret (tag id c.received) .notFound) else none
        | _ => none
  | _ => none

def history (tr : List (Server × Label)) : List (Event Op Answer) :=
  tr.filterMap event

/-- The access to `storage_` that a step makes, with the answer it leads to. -/
def effect (e : Server × Label) : Option (Entry Op Answer) :=
  match e.2 with
  | .handle id =>
      (e.1.conns id).bind fun c =>
        match c.handler with
        | .storing hash data => some ⟨tag id c.received, .store hash data, .ack⟩
        | .lookup hash => some ⟨tag id c.received, .get hash, answer (e.1.node.storage hash)⟩
        | _ => none
  | _ => none

/-- The accesses to `storage_`, in their order. -/
def effects (tr : List (Server × Label)) : List (Entry Op Answer) :=
  tr.filterMap effect

section

variable {s s' : Server} {l : Label} {tr : List (Server × Label)} {id : Nat} {c c' : Endpoint}
  {H : List (Event Op Answer)} {L : List (Entry Op Answer)}

theorem history_concat (e : Server × Label) :
    history (tr ++ [e]) = history tr ++ (event e).toList := by
  rw [history, List.filterMap_append, history]
  cases h : event e <;> simp [h]

theorem effects_concat (e : Server × Label) :
    effects (tr ++ [e]) = effects tr ++ (effect e).toList := by
  rw [effects, List.filterMap_append, effects]
  cases h : effect e <;> simp [h]

@[simp] theorem setConn_node : (s.setConn id c).node = s.node := rfl

@[simp] theorem setConn_accepted : (s.setConn id c).accepted = s.accepted := rfl

@[simp] theorem setConn_conns : (s.setConn id c).conns = Function.update s.conns id (some c) := rfl

theorem setConn_conn {k : Nat} {d : Endpoint} (h : (s.setConn id c).conns k = some d) :
    k = id ∧ d = c ∨ k ≠ id ∧ s.conns k = some d := by
  by_cases hk : k = id
  · subst hk
    simp only [setConn_conns, Function.update_self, Option.some.injEq] at h
    exact Or.inl ⟨rfl, h.symm⟩
  · rw [setConn_conns, Function.update_of_ne hk] at h
    exact Or.inr ⟨hk, h⟩

/-- Only the accesses of the handlers change what is stored. -/
theorem dispatch_storage (node : StorageNode) (command : Bytes) :
    (node.dispatch command).1.storage = node.storage := by
  unfold StorageNode.dispatch
  repeat' split
  all_goals rfl

theorem afterCommand_cases (node : StorageNode) (command : Bytes) :
    afterCommand node command = .closed ∨ (∃ hash, afterCommand node command = .ready hash) ∨
      (∃ hash, afterCommand node command = .lookup hash) ∨ afterCommand node command = .error ∨
      afterCommand node command = .dying := by
  unfold afterCommand
  split
  · simp
  · split <;> simp

/-! ## The invariant -/

/-- What the command `t` of a handler has come to: whether it has been called, and whether it has
taken effect. -/
def Doing (H : List (Event Op Answer)) (L : List (Entry Op Answer)) (t : Nat) : Handler → Prop
  | .ready _ => ∀ op, Event.call t op ∉ H
  | .awaitData _ => ∀ op, Event.call t op ∉ H
  | .storing hash data => Event.call t (.store hash data) ∈ H ∧ t ∉ L.map Entry.id ∧
      data ≠ [] ∧ data.length < 2 ^ 32
  | .ack hash data => ⟨t, .store hash data, .ack⟩ ∈ L
  | .lookup hash => Event.call t (.get hash) ∈ H ∧ t ∉ L.map Entry.id
  | .found hash data => ⟨t, .get hash, .found data⟩ ∈ L
  | .foundData hash data => ⟨t, .get hash, .found data⟩ ∈ L
  | .notFound hash => ⟨t, .get hash, .notFound⟩ ∈ L
  | _ => True

/-- The accesses so far are in an order that the history allows, and have led to what is stored. -/
structure Ordered (tr : List (Server × Label)) (s : Server) : Prop where
  built : Linearizing blobs (history tr) (effects tr)
  state : replay blobs blobs.init (effects tr) = s.node.storage
  doing : ∀ id c, s.conns id = some c →
    Doing (history tr) (effects tr) (tag id c.received) c.handler
  known : ∀ ev ∈ history tr, ∃ id c k, s.conns id = some c ∧ k ≤ c.received ∧ ev.id = tag id k
  whole : ∀ hash data, s.node.storage hash = some data → data ≠ [] ∧ data.length < 2 ^ 32
  opened : ∀ id c, s.conns id = some c → id < s.accepted

/-- Events and effects of other commands do not matter. -/
theorem Doing.mono {t : Nat} {handler : Handler} {evs : Option (Event Op Answer)}
    {eff : Option (Entry Op Answer)} (h : Doing H L t handler) (hev : ∀ ev ∈ evs, ev.id ≠ t)
    (heff : ∀ e ∈ eff, e.id ≠ t) : Doing (H ++ evs.toList) (L ++ eff.toList) t handler := by
  have hcall : ∀ op, Event.call t op ∉ H → Event.call t op ∉ H ++ evs.toList := by
    intro op hop hmem
    rcases List.mem_append.1 hmem with hmem | hmem
    · exact hop hmem
    · exact hev _ (Option.mem_toList.1 hmem) rfl
  have hids : t ∉ L.map Entry.id → t ∉ (L ++ eff.toList).map Entry.id := by
    intro ht hmem
    rw [List.map_append, List.mem_append] at hmem
    rcases hmem with hmem | hmem
    · exact ht hmem
    · rcases List.mem_map.1 hmem with ⟨e, he, heq⟩
      exact heff e (Option.mem_toList.1 he) heq
  cases handler with
  | ready hash => exact fun op => hcall op (h op)
  | awaitData hash => exact fun op => hcall op (h op)
  | storing hash data => exact ⟨List.mem_append_left _ h.1, hids h.2.1, h.2.2⟩
  | ack hash data => exact List.mem_append_left _ h
  | lookup hash => exact ⟨List.mem_append_left _ h.1, hids h.2⟩
  | found hash data => exact List.mem_append_left _ h
  | foundData hash data => exact List.mem_append_left _ h
  | notFound hash => exact List.mem_append_left _ h
  | _ => trivial

theorem ordered_launch : Ordered [] launch where
  built := .start
  state := rfl
  doing := by simp [launch]
  known := by simp [history]
  whole := by simp [launch, StorageNode.launch]
  opened := by simp [launch]

/-- A step that no client hears of and that makes no access. -/
theorem Ordered.quiet (h : Ordered tr s) (hevent : event (s, l) = none)
    (heffect : effect (s, l) = none) (hnode : s'.node.storage = s.node.storage)
    (hkeep : ∀ id c, s.conns id = some c → ∃ c', s'.conns id = some c' ∧ c.received ≤ c'.received)
    (hdoing : ∀ id c', s'.conns id = some c' → id < s'.accepted ∧
      Doing (history tr) (effects tr) (tag id c'.received) c'.handler) :
    Ordered (tr ++ [(s, l)]) s' := by
  have hhistory : history (tr ++ [(s, l)]) = history tr := by simp [history_concat, hevent]
  have heffects : effects (tr ++ [(s, l)]) = effects tr := by simp [effects_concat, heffect]
  refine ⟨?_, ?_, ?_, ?_, ?_, fun id c' hc' => (hdoing id c' hc').1⟩
  · rw [hhistory, heffects]
    exact h.built
  · rw [heffects, hnode]
    exact h.state
  · rw [hhistory, heffects]
    exact fun id c' hc' => (hdoing id c' hc').2
  · rw [hhistory]
    intro ev hev
    rcases h.known ev hev with ⟨id, c, k, hc, hk, hid⟩
    rcases hkeep id c hc with ⟨c', hc', hle⟩
    exact ⟨id, c', k, hc', le_trans hk hle, hid⟩
  · rw [hnode]
    exact h.whole

/-- A step of one handler. -/
theorem Ordered.move (h : Ordered tr s) (hc : s.conns id = some c) {node : StorageNode}
    {evs : Option (Event Op Answer)} {eff : Option (Entry Op Answer)}
    (hevent : event (s, .handle id) = evs) (heffect : effect (s, .handle id) = eff)
    (hreceived : c.received ≤ c'.received)
    (hev : ∀ ev ∈ evs, ∃ k, k ≤ c'.received ∧ ev.id = tag id k)
    (heff : ∀ e ∈ eff, ∃ k, e.id = tag id k)
    (hbuilt : Linearizing blobs (history tr ++ evs.toList) (effects tr ++ eff.toList))
    (hstate : replay blobs blobs.init (effects tr ++ eff.toList) = node.storage)
    (hwhole : ∀ hash data, node.storage hash = some data → data ≠ [] ∧ data.length < 2 ^ 32)
    (hdoing : Doing (history tr ++ evs.toList) (effects tr ++ eff.toList) (tag id c'.received)
      c'.handler) :
    Ordered (tr ++ [(s, .handle id)]) (Server.setConn { s with node := node } id c') := by
  have hhistory : history (tr ++ [(s, .handle id)]) = history tr ++ evs.toList := by
    rw [history_concat, hevent]
  have heffects : effects (tr ++ [(s, .handle id)]) = effects tr ++ eff.toList := by
    rw [effects_concat, heffect]
  have hself : (Server.setConn { s with node := node } id c').conns id = some c' := by simp
  refine ⟨by rw [hhistory, heffects]; exact hbuilt, by rw [heffects]; exact hstate, ?_, ?_,
    hwhole, ?_⟩
  · rw [hhistory, heffects]
    intro k d hd
    rcases setConn_conn hd with ⟨rfl, rfl⟩ | ⟨hk, hd⟩
    · exact hdoing
    · -- The commands of another connection are others.
      refine (h.doing k d hd).mono ?_ ?_
      · intro ev hmem heq
        rcases hev ev hmem with ⟨j, _, hj⟩
        exact hk (tag_inj.1 (heq.symm.trans hj)).1
      · intro e hmem heq
        rcases heff e hmem with ⟨j, hj⟩
        exact hk (tag_inj.1 (heq.symm.trans hj)).1
  · rw [hhistory]
    intro ev hmem
    rcases List.mem_append.1 hmem with hmem | hmem
    · rcases h.known ev hmem with ⟨i, d, k, hd, hk, hid⟩
      by_cases hi : i = id
      · subst hi
        cases hc.symm.trans hd
        exact ⟨i, c', k, hself, le_trans hk hreceived, hid⟩
      · exact ⟨i, d, k, by simpa [hi] using hd, hk, hid⟩
    · rcases hev ev (Option.mem_toList.1 hmem) with ⟨k, hk, hid⟩
      exact ⟨id, c', k, hself, hk, hid⟩
  · intro k d hd
    rcases setConn_conn hd with ⟨rfl, _⟩ | ⟨_, hd⟩
    · exact h.opened k c hc
    · exact h.opened k d hd

/-- A step of one handler that no client hears of and that makes no access. -/
theorem Ordered.silent (h : Ordered tr s) (hc : s.conns id = some c)
    (hevent : event (s, .handle id) = none) (heffect : effect (s, .handle id) = none)
    {node : StorageNode} (hnode : node.storage = s.node.storage)
    (hreceived : c.received ≤ c'.received)
    (hdoing : Doing (history tr) (effects tr) (tag id c'.received) c'.handler) :
    Ordered (tr ++ [(s, .handle id)]) (Server.setConn { s with node := node } id c') := by
  refine h.move hc hevent heffect hreceived (by simp) (by simp) ?_ ?_ ?_ ?_
  · simpa using h.built
  · simpa [hnode] using h.state
  · rw [hnode]
    exact h.whole
  · simpa using hdoing

/-- A connection on which the handler stays where it is. -/
theorem Ordered.same (h : Ordered tr s) (hc : s.conns id = some c)
    (hevent : event (s, l) = none) (heffect : effect (s, l) = none)
    (hhandler : c'.handler = c.handler) (hreceived : c'.received = c.received) :
    Ordered (tr ++ [(s, l)]) (s.setConn id c') := by
  refine h.quiet hevent heffect rfl ?_ ?_
  · intro k d hd
    by_cases hk : k = id
    · subst hk
      cases hc.symm.trans hd
      exact ⟨c', by simp, hreceived.ge⟩
    · exact ⟨d, by simpa [hk] using hd, le_rfl⟩
  · intro k d hd
    rcases setConn_conn hd with ⟨rfl, rfl⟩ | ⟨_, hd⟩
    · rw [hhandler, hreceived]
      exact ⟨h.opened k c hc, h.doing k c hc⟩
    · exact ⟨h.opened k d hd, h.doing k d hd⟩

/-- An answer goes out, or is lost because the connection is gone. -/
theorem Ordered.reply (h : Ordered tr s) (hc : s.conns id = some c) {e : Entry Op Answer}
    (he : e ∈ effects tr) (hid : e.id = tag id c.received)
    (hevent : event (s, .handle id) =
      if c.connected then some (.ret (tag id c.received) e.res) else none)
    (heffect : effect (s, .handle id) = none) (message : Bytes) :
    Ordered (tr ++ [(s, .handle id)]) (s.setConn id (c.send message .top)) := by
  cases hconn : c.connected with
  | false => exact h.silent hc (by simpa [hconn] using hevent) heffect rfl le_rfl trivial
  | true =>
      rw [hconn, if_pos rfl] at hevent
      refine h.move hc hevent heffect le_rfl ?_ (by simp) ?_ ?_ h.whole trivial
      · intro ev hev
        cases hev
        exact ⟨c.received, le_rfl, rfl⟩
      · have hret := h.built.ret e he
        rw [hid] at hret
        simpa using hret
      · simpa using h.state

/-- A command that has just been read has a fresh identity. -/
theorem Ordered.fresh (h : Ordered tr s) (hc : s.conns id = some c) (op : Op) :
    Event.call (tag id (c.received + 1)) op ∉ history tr := by
  intro hmem
  rcases h.known _ hmem with ⟨i, d, k, hd, hk, heq⟩
  rcases tag_inj.1 heq with ⟨rfl, rfl⟩
  cases hc.symm.trans hd
  exact absurd hk (Nat.not_succ_le_self c.received)

/-- A handler reads a command. -/
theorem Ordered.command (h : Ordered tr s) (hc : s.conns id = some c)
    (hhandler : c.handler = .reading)
    (hopen : afterCommand s.node (recvData c.inbound).1 ≠ .closed) :
    Ordered (tr ++ [(s, .handle id)])
      (Server.setConn { s with node := (s.node.dispatch (recvData c.inbound).1).1 } id
        { c.advance with
          handler := afterCommand s.node (recvData c.inbound).1
          received := c.received + 1 }) := by
  have heffect : effect (s, .handle id) = none := by simp [effect, hc, hhandler]
  have hnode := dispatch_storage s.node (recvData c.inbound).1
  have hle : c.received ≤ c.received + 1 := Nat.le_succ _
  rcases afterCommand_cases s.node (recvData c.inbound).1 with
    hafter | ⟨hash, hafter⟩ | ⟨hash, hafter⟩ | hafter | hafter
  · exact absurd hafter hopen
  · have hevent : event (s, .handle id) = none := by simp [event, hc, hhandler, hafter]
    rw [hafter]
    exact h.silent hc hevent heffect hnode hle (h.fresh hc)
  · -- A `GET` is called.
    have hevent : event (s, .handle id) =
        some (.call (tag id (c.received + 1)) (.get hash)) := by
      simp [event, hc, hhandler, hafter]
    have hnew : tag id (c.received + 1) ∉ (effects tr).map Entry.id := by
      intro hmem
      rcases List.mem_map.1 hmem with ⟨e, he, heq⟩
      exact h.fresh hc e.op (heq ▸ h.built.called he)
    rw [hafter]
    refine h.move hc hevent heffect hle ?_ (by simp) ?_ ?_ ?_ ?_
    · intro ev hev
      cases hev
      exact ⟨c.received + 1, le_rfl, rfl⟩
    · simpa using h.built.call (tag id (c.received + 1)) (.get hash) (h.fresh hc)
    · simpa [hnode] using h.state
    · rw [hnode]
      exact h.whole
    · exact ⟨by simp, by simpa using hnew⟩
  · have hevent : event (s, .handle id) = none := by simp [event, hc, hhandler, hafter]
    rw [hafter]
    exact h.silent hc hevent heffect hnode hle trivial
  · have hevent : event (s, .handle id) = none := by simp [event, hc, hhandler, hafter]
    rw [hafter]
    exact h.silent hc hevent heffect hnode hle trivial

/-- A handler reads the data frame of a `STORE`: the `STORE` is called. -/
theorem Ordered.data (h : Ordered tr s) (hc : s.conns id = some c) {hash : Bytes}
    (hhandler : c.handler = .awaitData hash) (hdata : (recvData c.inbound).1 ≠ []) :
    Ordered (tr ++ [(s, .handle id)])
      (s.setConn id (c.advance.goto (.storing hash (recvData c.inbound).1))) := by
  have hlength := (sendData_recvData hdata).2
  have heffect : effect (s, .handle id) = none := by simp [effect, hc, hhandler]
  have hdoing := h.doing id c hc
  rw [hhandler] at hdoing
  have hnew : tag id c.received ∉ (effects tr).map Entry.id := by
    intro hmem
    rcases List.mem_map.1 hmem with ⟨e, he, heq⟩
    exact hdoing e.op (heq ▸ h.built.called he)
  generalize hread : (recvData c.inbound).1 = data at hdata hlength ⊢
  have hevent : event (s, .handle id) =
      some (.call (tag id c.received) (.store hash data)) := by
    simp only [event, hc, hhandler, hread, Option.bind_some]
  refine h.move hc hevent heffect le_rfl ?_ (by simp) ?_ ?_ h.whole ?_
  · intro ev hev
    cases hev
    exact ⟨c.received, le_rfl, rfl⟩
  · simpa using h.built.call (tag id c.received) (.store hash data) hdoing
  · simpa using h.state
  · have hold : tag id c.received ∉
        (effects tr ++ (none : Option (Entry Op Answer)).toList).map Entry.id := by
      simpa using hnew
    refine ⟨?_, hold, hdata, hlength⟩
    have hlast : Event.call (tag id c.received) (.store hash data) ∈
        history tr ++ [Event.call (tag id c.received) (.store hash data)] := by simp
    exact hlast

/-- A handler updates `storage_`. -/
theorem Ordered.store (h : Ordered tr s) (hc : s.conns id = some c) {hash data : Bytes}
    (hhandler : c.handler = .storing hash data) :
    Ordered (tr ++ [(s, .handle id)])
      (Server.setConn { s with node := s.node.store hash data } id
        (c.goto (.ack hash data))) := by
  have hevent : event (s, .handle id) = none := by simp [event, hc, hhandler]
  have heffect : effect (s, .handle id) =
      some ⟨tag id c.received, .store hash data, .ack⟩ := by simp [effect, hc, hhandler]
  have hdoing := h.doing id c hc
  rw [hhandler] at hdoing
  rcases hdoing with ⟨hcall, hfresh, hdata, hlength⟩
  refine h.move hc hevent heffect le_rfl (by simp) ?_ ?_ ?_ ?_ ?_
  · intro e he
    cases he
    exact ⟨c.received, rfl⟩
  · simpa using h.built.effect (tag id c.received) (.store hash data) hcall hfresh
  · simp only [Option.toList_some, replay_concat, h.state, blobs_store, StorageNode.store_storage]
  · intro hash' data' hstored
    by_cases heq : hash' = hash
    · subst heq
      simp only [StorageNode.store_storage, Function.update_self, Option.some.injEq] at hstored
      exact hstored ▸ ⟨hdata, hlength⟩
    · rw [StorageNode.store_storage, Function.update_of_ne heq] at hstored
      exact h.whole hash' data' hstored
  · have hlast : (⟨tag id c.received, .store hash data, .ack⟩ : Entry Op Answer) ∈
        effects tr ++ [⟨tag id c.received, .store hash data, .ack⟩] := by simp
    exact hlast

/-- A handler looks a hash up. -/
theorem Ordered.lookup (h : Ordered tr s) (hc : s.conns id = some c) {hash : Bytes}
    (hhandler : c.handler = .lookup hash) {handler : Handler}
    (hnext : handler = .notFound hash ∧ s.node.storage hash = none ∨
      ∃ data, handler = .found hash data ∧ s.node.storage hash = some data) :
    Ordered (tr ++ [(s, .handle id)]) (s.setConn id (c.goto handler)) := by
  have hevent : event (s, .handle id) = none := by simp [event, hc, hhandler]
  have heffect : effect (s, .handle id) =
      some ⟨tag id c.received, .get hash, answer (s.node.storage hash)⟩ := by
    simp [effect, hc, hhandler]
  have hdoing := h.doing id c hc
  rw [hhandler] at hdoing
  rcases hdoing with ⟨hcall, hfresh⟩
  refine h.move hc hevent heffect le_rfl (by simp) ?_ ?_ ?_ h.whole ?_
  · intro e he
    cases he
    exact ⟨c.received, rfl⟩
  · have heff := h.built.effect (tag id c.received) (.get hash) hcall hfresh
    rw [h.state] at heff
    simpa using heff
  · simp only [Option.toList_some, replay_concat, h.state, blobs_get]
  · have hlast : (⟨tag id c.received, .get hash, answer (s.node.storage hash)⟩ : Entry Op Answer) ∈
        effects tr ++ [⟨tag id c.received, .get hash, answer (s.node.storage hash)⟩] := by simp
    rcases hnext with ⟨rfl, hnone⟩ | ⟨data, rfl, hsome⟩
    · rw [hnone] at hlast ⊢
      exact hlast
    · rw [hsome] at hlast ⊢
      exact hlast

/-- The server is stopped: the handlers stay where they are. -/
theorem stop_conn {k : Nat} {d : Endpoint} (h : s.stop.conns k = some d) :
    ∃ c, s.conns k = some c ∧ d.handler = c.handler ∧ d.received = c.received := by
  rcases Option.map_eq_some_iff.1 h with ⟨c, hc, rfl⟩
  exact ⟨c, hc, rfl, rfl⟩

theorem Ordered.handle (h : Ordered tr s) (hc : s.conns id = some c)
    (hserve : s.serve id c = some s') : Ordered (tr ++ [(s, .handle id)]) s' := by
  have hdoing := h.doing id c hc
  unfold serve at hserve
  cases hhandler : c.handler with
  | top =>
      simp only [hhandler, Option.some.injEq] at hserve
      subst hserve
      have hevent : event (s, .handle id) = none := by simp [event, hc, hhandler]
      have heffect : effect (s, .handle id) = none := by simp [effect, hc, hhandler]
      cases s.node.running with
      | true => exact h.silent hc hevent heffect rfl le_rfl trivial
      | false => exact h.silent hc hevent heffect rfl le_rfl trivial
  | reading =>
      simp only [hhandler] at hserve
      split at hserve
      · split at hserve
        · rename_i hafter
          cases hserve
          have hevent : event (s, .handle id) = none := by simp [event, hc, hhandler, hafter]
          have heffect : effect (s, .handle id) = none := by simp [effect, hc, hhandler]
          exact h.silent hc hevent heffect rfl le_rfl trivial
        · rename_i hopen
          cases hserve
          exact h.command hc hhandler hopen
      · cases hserve
  | ready hash =>
      simp only [hhandler, Option.some.injEq] at hserve
      subst hserve
      rw [hhandler] at hdoing
      exact h.silent hc (by simp [event, hc, hhandler]) (by simp [effect, hc, hhandler]) rfl
        le_rfl hdoing
  | awaitData hash =>
      simp only [hhandler] at hserve
      split at hserve
      · split at hserve
        · rename_i hnil
          cases hserve
          have hevent : event (s, .handle id) = none := by simp [event, hc, hhandler, hnil]
          have heffect : effect (s, .handle id) = none := by simp [effect, hc, hhandler]
          exact h.silent hc hevent heffect rfl le_rfl trivial
        · rename_i hdata
          cases hserve
          exact h.data hc hhandler hdata
      · cases hserve
  | storing hash data =>
      simp only [hhandler, Option.some.injEq] at hserve
      subst hserve
      exact h.store hc hhandler
  | ack hash data =>
      simp only [hhandler, Option.some.injEq] at hserve
      subst hserve
      rw [hhandler] at hdoing
      exact h.reply hc hdoing rfl (by simp [event, hc, hhandler]) (by simp [effect, hc, hhandler]) _
  | lookup hash =>
      simp only [hhandler] at hserve
      cases hheld : s.node.storage hash with
      | none =>
          simp only [hheld, Option.getD_none, Option.some.injEq] at hserve
          subst hserve
          exact h.lookup hc hhandler (Or.inl ⟨rfl, hheld⟩)
      | some data =>
          have hdata := (h.whole hash data hheld).1
          cases hd : data with
          | nil => exact absurd hd hdata
          | cons b rest =>
              simp only [hheld, hd, Option.getD_some, Option.some.injEq] at hserve
              subst hserve
              exact h.lookup hc hhandler (Or.inr ⟨_, rfl, hd ▸ hheld⟩)
  | found hash data =>
      simp only [hhandler, Option.some.injEq] at hserve
      subst hserve
      rw [hhandler] at hdoing
      exact h.silent hc (by simp [event, hc, hhandler]) (by simp [effect, hc, hhandler]) rfl
        le_rfl hdoing
  | foundData hash data =>
      simp only [hhandler, Option.some.injEq] at hserve
      subst hserve
      rw [hhandler] at hdoing
      exact h.reply hc hdoing rfl (by simp [event, hc, hhandler]) (by simp [effect, hc, hhandler]) _
  | notFound hash =>
      simp only [hhandler, Option.some.injEq] at hserve
      subst hserve
      rw [hhandler] at hdoing
      exact h.reply hc hdoing rfl (by simp [event, hc, hhandler]) (by simp [effect, hc, hhandler]) _
  | error =>
      simp only [hhandler, Option.some.injEq] at hserve
      subst hserve
      exact h.silent hc (by simp [event, hc, hhandler]) (by simp [effect, hc, hhandler]) rfl
        le_rfl trivial
  | dying =>
      simp only [hhandler, Option.some.injEq] at hserve
      subst hserve
      refine h.quiet (by simp [event, hc, hhandler]) (by simp [effect, hc, hhandler]) rfl ?_ ?_
      · intro k d hd
        by_cases hk : k = id
        · subst hk
          cases hc.symm.trans hd
          exact ⟨c.close, by simp, le_rfl⟩
        · exact ⟨{ d with connected := false }, by simp [stop, hk, hd], le_rfl⟩
      · intro k d hd
        rcases setConn_conn hd with ⟨rfl, rfl⟩ | ⟨_, hd⟩
        · exact ⟨h.opened k c hc, trivial⟩
        · rcases stop_conn hd with ⟨d', hd', hhandler', hreceived⟩
          rw [hhandler', hreceived]
          exact ⟨h.opened k d' hd', h.doing k d' hd'⟩
  | closed => simp [hhandler] at hserve

/-- Every step keeps the invariant. -/
theorem Ordered.step (h : Ordered tr s) (hstep : s.step l = some s') :
    Ordered (tr ++ [(s, l)]) s' := by
  cases l with
  | accept =>
      simp only [Server.step] at hstep
      split at hstep
      · cases hstep
        refine h.quiet rfl rfl rfl ?_ ?_
        · intro k d hd
          have hk : k ≠ s.accepted := (h.opened k d hd).ne
          exact ⟨d, by simpa [hk] using hd, le_rfl⟩
        · intro k d hd
          rcases setConn_conn (s := s) hd with ⟨rfl, rfl⟩ | ⟨_, hd⟩
          · exact ⟨Nat.lt_succ_self _, trivial⟩
          · exact ⟨Nat.lt_succ_of_lt (h.opened k d hd), h.doing k d hd⟩
      · cases hstep
  | arrive id bytes =>
      simp only [Server.step] at hstep
      cases hc : s.conns id with
      | none => simp [hc] at hstep
      | some c =>
          simp only [hc] at hstep
          split at hstep
          · cases hstep
            exact h.same hc rfl rfl rfl rfl
          · cases hstep
  | drop id kept =>
      rcases Option.map_eq_some_iff.1 hstep with ⟨c, hc, rfl⟩
      exact h.same hc rfl rfl rfl rfl
  | handle id =>
      rcases Option.bind_eq_some_iff.1 hstep with ⟨c, hc, hserve⟩
      exact h.handle hc hserve

/-! ## Frames -/

/-- The command `t` of some connection is a `STORE` of the hash whose data frame has been received:
whole, and not empty. -/
def FrameReceived (tr : List (Server × Label)) (t : Nat) (hash data : Bytes) : Prop :=
  ∃ s id c rest, (s, .handle id) ∈ tr ∧ s.conns id = some c ∧ c.handler = .awaitData hash ∧
    t = tag id c.received ∧ c.inbound = sendData data ++ rest ∧ data ≠ [] ∧ data.length < 2 ^ 32

/-- The step puts the data on the connection as one frame. -/
def SendsFrame (e : Server × Label) (data : Bytes) : Prop :=
  ∃ id c s' c', e.2 = .handle id ∧ e.1.conns id = some c ∧ e.1.step e.2 = some s' ∧
    s'.conns id = some c' ∧ c'.outbound = c.outbound ++ sendData data

theorem frameReceived_of_call {t : Nat} {hash data : Bytes}
    (h : Event.call t (.store hash data) ∈ history tr) : FrameReceived tr t hash data := by
  rcases List.mem_filterMap.1 h with ⟨⟨s, l⟩, hmem, hevent⟩
  cases l with
  | handle id =>
      rcases Option.bind_eq_some_iff.1 hevent with ⟨c, hc, hevent⟩
      cases hhandler : c.handler with
      | awaitData hash' =>
          simp only [hhandler] at hevent
          split at hevent
          · cases hevent
          · rename_i hne
            simp only [Option.some.injEq, Event.call.injEq, Op.store.injEq] at hevent
            rcases hevent with ⟨rfl, rfl, rfl⟩
            have hframe := sendData_recvData hne
            exact ⟨s, id, c, _, hmem, hc, hhandler, rfl, hframe.1, hne, hframe.2⟩
      | reading =>
          simp only [hhandler] at hevent
          split at hevent <;> simp at hevent
      | ack hash' data' => simp [hhandler] at hevent
      | foundData hash' data' => simp [hhandler] at hevent
      | notFound hash' => simp [hhandler] at hevent
      | _ => simp [hhandler] at hevent
  | _ => cases hevent

theorem sendsFrame_of_found {e : Server × Label} {t : Nat} {data : Bytes}
    (h : event e = some (.ret t (.found data))) : SendsFrame e data := by
  rcases e with ⟨s, l⟩
  cases l with
  | handle id =>
      rcases Option.bind_eq_some_iff.1 h with ⟨c, hc, hevent⟩
      cases hhandler : c.handler with
      | foundData hash data' =>
          simp only [hhandler] at hevent
          split at hevent
          · rename_i hconn
            simp only [Option.some.injEq, Event.ret.injEq, Answer.found.injEq] at hevent
            rcases hevent with ⟨_, rfl⟩
            have hconn' : s.conns id = some c := hc
            have hstep : s.step (.handle id) = some (s.setConn id (c.send data' .top)) := by
              simp [Server.step, hconn', serve, hhandler]
            exact ⟨id, c, _, c.send data' .top, rfl, hc, hstep, by simp,
              by simp [Endpoint.send, hconn]⟩
          · cases hevent
      | reading =>
          simp only [hhandler] at hevent
          split at hevent <;> simp at hevent
      | awaitData hash =>
          simp only [hhandler] at hevent
          split at hevent <;> simp at hevent
      | ack hash data' => simp [hhandler] at hevent
      | notFound hash => simp [hhandler] at hevent
      | _ => simp [hhandler] at hevent
  | _ => cases h

theorem ordered_run {P : Server → Label → Prop} (h : Run Server.step P launch tr s) :
    Ordered tr s :=
  Run.invariant ordered_launch (fun _ _ _ _ h _ hstep => h.step hstep) h

/-- Whatever the clients send, and wherever their connections drop: the accesses to `storage_`, in
their order, linearize what is answered; what is stored is what the last `STORE`s have left, a `GET`
is answered with the last `STORE` before its lookup, and with no less than what was acknowledged
before it; a `STORE` has an effect only if its data frame has come whole and with data in it; and
the data of an entry, never empty, goes out as one frame. -/
theorem storage_linearizable (h : Run Server.step (fun _ _ => True) launch tr s) :
    Linearizes blobs (history tr) (effects tr) ∧
    (∀ hash, s.node.storage hash = lastStore (effects tr) hash) ∧
    (∀ L₁ e L₂ hash, effects tr = L₁ ++ e :: L₂ → e.op = .get hash →
      e.res = answer (lastStore L₁ hash) ∧
      ∀ e' ∈ effects tr, [Event.ret e'.id .ack, Event.call e.id e.op].Sublist (history tr) →
        e' ∈ L₁) ∧
    (∀ e ∈ effects tr, ∀ hash data, e.op = .store hash data → FrameReceived tr e.id hash data) ∧
    (∀ e ∈ tr, ∀ t data, event e = some (.ret t (.found data)) → SendsFrame e data) ∧
    ∀ hash data, s.node.storage hash = some data →
      data ≠ [] ∧ recvData (sendData data) = (data, []) := by
  have hordered := ordered_run h
  have hlin := hordered.built.linearizes
  refine ⟨hlin, ?_, ?_, ?_, fun e _ t data he => sendsFrame_of_found he, ?_⟩
  · intro hash
    rw [← hordered.state]
    exact replay_eq_lastStore _ hash
  · intro L₁ e L₂ hash hL hop
    refine ⟨?_, fun e' he' hsub => hlin.before hL he' hsub⟩
    have hlegal := hlin.legal
    rw [hL] at hlegal
    have hres := legal_split hlegal
    rw [hop, blobs_get, replay_eq_lastStore] at hres
    exact hres
  · intro e he hash data hop
    have hcall := hlin.called e he
    rw [hop] at hcall
    exact frameReceived_of_call hcall
  · intro hash data hstored
    rcases hordered.whole hash data hstored with ⟨hne, hlength⟩
    refine ⟨hne, ?_⟩
    have hframe := recvData_sendData data []
    rw [List.append_nil, List.append_nil, Nat.mod_eq_of_lt hlength, List.take_length,
      List.drop_length] at hframe
    exact hframe

end

/-! ## Two connections -/

/-- Two clients store under one hash, the second in two pieces and after the first has dropped; a
third connection drops in the middle of a data frame; then the second client reads. -/
def overlapping : List Label :=
  [.accept, .accept, .accept,
    .arrive 0 (sendData (ascii "STORE k") ++ sendData (ascii "old")),
    .arrive 1 (sendData (ascii "STORE k")),
    .handle 0, .handle 0, .handle 1, .handle 1, .handle 0, .handle 0, .handle 1,
    .arrive 2 (sendData (ascii "STORE k") ++ sendData (ascii "lost")),
    .handle 0, .drop 0 0, .handle 0,
    .arrive 1 [0, 0, 0, 3, 110], .arrive 1 [101, 119],
    .handle 2, .handle 2, .handle 2, .drop 2 5, .handle 2,
    .handle 1, .handle 1, .handle 1,
    .arrive 1 (sendData (ascii "GET k")), .handle 1, .handle 1, .handle 1, .handle 1, .handle 1]

theorem storage_linearizable_overlapping :
    let run := Run.replayed Server.step launch overlapping
    history run.1 =
        [.call (tag 0 1) (.store (ascii "k") (ascii "old")),
          .call (tag 1 1) (.store (ascii "k") (ascii "new")), .ret (tag 1 1) .ack,
          .call (tag 1 2) (.get (ascii "k")), .ret (tag 1 2) (.found (ascii "new"))] ∧
      Linearizes blobs (history run.1) (effects run.1) := by
  intro run
  have hrun : Run Server.step (fun _ _ => True) launch run.1 run.2 :=
    Run.of_labels (L := fun _ => True) (by decide +kernel) (fun _ _ => trivial)
      fun _ _ _ => trivial
  exact ⟨by decide +kernel, (storage_linearizable hrun).1⟩

end Server
end Storage
end Dfs

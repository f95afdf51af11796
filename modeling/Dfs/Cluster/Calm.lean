import Dfs.Cluster.NoDangling
import Dfs.Metadata.FailureFree

/-!
# The system on a chain without failures

Clients that share their lists, on metadata nodes that do not fail.  A `PUT` is then answered with
`ACK`, and only after the last node has stored its record; so an upload that turns to the metadata
nodes sends its record once, and is complete when it is answered.
-/

namespace Dfs
namespace Cluster

open Bytes TextScan Network Common Client Storage Dht Metadata Program

/-! ## The runs -/

/-- The metadata list names the nodes of the chain in their order. -/
structure Lists (site : Site) (metadataNodes : List Bytes) : Prop where
  length_eq : metadataNodes.length = site.net.size
  node : ∀ v nodeAddr, metadataNodes[v]? = some nodeAddr →
    ∃ ip port, parseNodeAddr nodeAddr = .endpoint ip port ∧ site.net.resolve ip port = some v

def Job.client : Job → Client
  | upload client _ => client
  | download client _ _ => client

/-- Requests fit one frame, and uploads are of nonempty files whose base names are words. -/
def Job.Fit (job : Job) : Prop :=
  job.line.length < 2 ^ 32 ∧
    match job with
    | upload _ file => file.chunks ≠ [] ∧ IsWord (baseName file.path)
    | download _ _ _ => True

theorem wellFormed_of_fit {client : Client} {file : LocalFile} (h : (Job.upload client file).Fit) :
    WellFormed file.record := by
  have hrecord : ({ file.record with filename := baseName file.path } : FileMetadata) =
      file.record := by
    simp only [LocalFile.record, uploadRecord]
  rw [← hrecord]
  exact file.wellFormed_record h.2.1 h.2.2

/-- All clients have the same lists. -/
def Starts (client : Client) : Label Job → Prop
  | .start job => job.client = client ∧ job.Fit
  | _ => True

/-- Nobody is there to take the call. -/
def Unserved (site : Site) (s : State Job Report) (c : Call) : Prop :=
  site.metadataTarget c = none ∧
    ∀ i, site.storageTarget c = some i → (s.storage i).running = false

/-- Only storage nodes fail: a connection is refused or breaks only when its node has crashed. -/
def OnlyCrashes (site : Site) (s : State Job Report) : Label Job → Prop
  | .refuse p => ∀ proc c next, s.procs p = some proc → proc.program = .call c next →
      Unserved site s c
  | .lose p => ∀ proc i conn, s.procs p = some proc → proc.link = .storage i conn →
      (s.storage i).running = false
  | .chain l => Chain.FailureFree s.chain l
  | _ => True

def Permitted (site : Site) (client : Client) (s : State Job Report) (l : Label Job) : Prop :=
  Starts client l ∧ OnlyCrashes site s l

/-! ## Deciding what is permitted -/

instance (site : Site) (s : State Job Report) (c : Call) : Decidable (Unserved site s c) :=
  decidable_of_iff
    (site.metadataTarget c = none ∧
      ((site.storageTarget c).all fun i => ! (s.storage i).running) = true) (by
    unfold Unserved
    cases site.storageTarget c <;> simp)

instance (site : Site) (s : State Job Report) (l : Label Job) :
    Decidable (OnlyCrashes site s l) :=
  match l with
  | .refuse p =>
      match hp : s.procs p with
      | none => isTrue fun proc c next h => by cases hp.symm.trans h
      | some proc =>
          match hcall : proc.program with
          | .call c next =>
              if h : Unserved site s c then isTrue fun proc' c' next' hp' hcall' => by
                cases hp.symm.trans hp'
                cases hcall.symm.trans hcall'
                exact h
              else isFalse fun hall => h (hall proc c next hp hcall)
          | .done r => isTrue fun proc' c' next' hp' hcall' => by
              cases hp.symm.trans hp'
              cases hcall.symm.trans hcall'
          | .throw => isTrue fun proc' c' next' hp' hcall' => by
              cases hp.symm.trans hp'
              cases hcall.symm.trans hcall'
  | .lose p =>
      match hp : s.procs p with
      | none => isTrue fun proc i conn h => by cases hp.symm.trans h
      | some proc =>
          match hlink : proc.link with
          | .storage i conn =>
              if h : (s.storage i).running = false then isTrue fun proc' i' conn' hp' hlink' => by
                cases hp.symm.trans hp'
                cases hlink.symm.trans hlink'
                exact h
              else isFalse fun hall => h (hall proc i conn hp hlink)
          | .idle => isTrue fun proc' i conn hp' hlink' => by
              cases hp.symm.trans hp'
              cases hlink.symm.trans hlink'
          | .metadata id => isTrue fun proc' i conn hp' hlink' => by
              cases hp.symm.trans hp'
              cases hlink.symm.trans hlink'
  | .chain l => inferInstanceAs (Decidable (Chain.FailureFree s.chain l))
  | .start _ => isTrue trivial
  | .connect _ => isTrue trivial
  | .transfer _ => isTrue trivial
  | .finish _ => isTrue trivial
  | .late _ => isTrue trivial
  | .crash _ => isTrue trivial
  | .nextFrame _ => isTrue trivial

/-! ## The chain of such a run -/

theorem request_putLine {record : FileMetadata} (h : WellFormed record) :
    request (putLine record) = some (.put record) :=
  (request_eq_put (MetadataNode.launch [] (-1) 0)).2
    ⟨MetadataNode.dispatch_eq_put.2 ⟨_, readWord_putLine record⟩, parsePut_putLine h⟩

theorem readWord_getLine (filename : Bytes) :
    readWord (getLine filename) = some (ascii "GET", 32 :: filename) := by
  have hword : IsWord (ascii "GET") := by decide +kernel
  exact readWord_append_space hword

theorem request_getLine {filename : Bytes} (h : IsWord filename) :
    request (getLine filename) = some (.get filename) := by
  have hne : ascii "GET" ≠ ascii "PUT" := by decide
  simp [request, readWord_getLine, hne, readWord_space, readWord_self h]

theorem request_getLine_of_readWord {filename name rest : Bytes}
    (h : readWord filename = some (name, rest)) :
    request (getLine filename) = some (.get name) := by
  have hne : ascii "GET" ≠ ascii "PUT" := by decide
  simp [request, readWord_getLine, hne, readWord_space, h]

theorem isRequest_line (job : Job) : IsRequest job.line := by
  cases job with
  | upload client file => exact ⟨_, Or.inl (readWord_putLine file.record)⟩
  | download client filename output => exact ⟨_, Or.inr (readWord_getLine filename)⟩

section

variable {site : Site} {client : Client} {nodes : Nat → MetadataNode} {s s' : State Job Report}
  {l : Label Job} {tr : List (State Job Report × Label Job)}

theorem jobs_fit
    (h : Run (Cluster.step site Job.program) (Permitted site client) (State.launch nodes) tr s) :
    ∀ p proc, s.procs p = some proc → proc.job.client = client ∧ proc.job.Fit :=
  jobs_of_run (Q := fun job => job.client = client ∧ job.Fit) (fun _ _ hl => hl.1) h

theorem requests_of_run
    (h : Run (Cluster.step site Job.program) (Permitted site client) (State.launch nodes) tr s) :
    Requests s := by
  refine Requests.run (fun s l hl => ?_) h
  cases l with
  | start job => exact hl.1.2.1
  | _ => trivial

/-- What the chain has done in such a run is a run of its own, without failures. -/
theorem chain_run
    (h : Run (Cluster.step site Job.program) (Permitted site client) (State.launch nodes) tr s) :
    ∃ tr', Run (Chain.step site.net) Chain.FailureFree (Chain.launch nodes) tr' s.chain := by
  induction h with
  | start => exact ⟨[], .start⟩
  | @step tr s s' l hrun hl hs ih =>
      rcases ih with ⟨tr', hchain⟩
      have hcoherent := Coherent.run hrun
      cases step_cases hs with
      | dialMetadata p proc c next v line chain hp hlink hcall htarget hdial =>
          have hline := line_of_asks (hcoherent.asks hp hcall) htarget
          have hfits : line.length < 2 ^ 32 := hline ▸ (jobs_fit hrun p proc hp).2.1
          have hrequest : IsRequest (firstFrame line) := by
            rw [firstFrame_of_lt hfits, hline]
            exact isRequest_line proc.job
          exact ⟨_, hchain.next (.connect v (firstFrame line)) _ hrequest hdial⟩
      | hear p proc c next id conn reply chain _ _ _ _ _ htake =>
          exact ⟨_, hchain.next (.take id) _ trivial htake⟩
      | chain lc chain _ hlc => exact ⟨_, hchain.next _ _ hl.2 hlc⟩
      | nextFrame id conn chain _ hleft _ =>
          exact absurd ((requests_of_run hrun).leftover id) hleft
      | _ => exact ⟨tr', hchain⟩

theorem calm_of_run (hwired : Wired site.net nodes)
    (h : Run (Cluster.step site Job.program) (Permitted site client) (State.launch nodes) tr s) :
    Chain.Calm site.net nodes s.chain := by
  rcases chain_run h with ⟨tr', hchain⟩
  exact Chain.Calm.run hwired (fun _ _ hfree => hfree) hchain

end

/-! ## Where calls go -/

/-- The call goes to a node that the client's lists name for it. -/
def Aimed (client : Client) : Call → Prop
  | .store ip port hash _ =>
      ∃ a ∈ client.dht.getNodesForKey hash 2, parseNodeAddr a = .endpoint ip port
  | .fetch ip port hash =>
      ∃ a ∈ client.dht.getNodesForKey hash 2, parseNodeAddr a = .endpoint ip port
  | .put ip port _ => ∃ a ∈ client.metadataNodes, parseNodeAddr a = .endpoint ip port
  | .lookup ip port _ => ∃ a ∈ client.metadataNodes, parseNodeAddr a = .endpoint ip port

theorem aimed_uploadChunk (client : Client) (chunk : Chunk) :
    (uploadChunk client.dht chunk).Calls (Aimed client) := by
  refine Calls.bind ?_ fun _ => trivial
  suffices hloop : ∀ nodes : List Bytes,
      (∀ a ∈ nodes, a ∈ client.dht.getNodesForKey chunk.hash replicationFactor) → ∀ count,
        (replicate chunk nodes count).Calls (Aimed client) from hloop _ (fun _ ha => ha) 0
  intro nodes
  induction nodes with
  | nil => exact fun _ _ => trivial
  | cons a nodes ih =>
      intro hnodes count
      refine Calls.bind (calls_onNode fun ip port haddr => ?_) fun _ =>
        ih (fun b hb => hnodes b (by simp [hb])) _
      exact ⟨⟨a, hnodes a (by simp), haddr⟩, fun _ => trivial⟩

theorem aimed_putMetadata (client : Client) (line : Bytes) :
    (putMetadata line client.metadataNodes).Calls (Aimed client) := by
  refine Calls.firstSome fun a ha => Calls.bind (calls_onNode fun ip port haddr => ?_) fun _ =>
    trivial
  exact ⟨⟨a, ha, haddr⟩, fun _ => trivial⟩

theorem aimed_lookupMetadata (client : Client) (filename : Bytes) :
    (lookupMetadata filename client.metadataNodes).Calls (Aimed client) := by
  refine Calls.firstSome fun a ha => Calls.bind (calls_onNode fun ip port haddr => ?_) fun _ =>
    trivial
  exact ⟨⟨a, List.mem_reverse.1 ha, haddr⟩, fun _ => trivial⟩

theorem aimed_downloadChunk (client : Client) (entry : Bytes × Nat) :
    (downloadChunk client.dht entry).Calls (Aimed client) := by
  refine Calls.bind (Calls.firstSome fun a ha => ?_) fun r => by cases r <;> trivial
  refine Calls.bind (calls_onNode fun ip port haddr => ?_) fun _ => trivial
  exact ⟨⟨a, ha, haddr⟩, fun _ => trivial⟩

theorem Job.aimed (job : Job) : job.program.Calls (Aimed job.client) := by
  cases job with
  | upload client file =>
      refine Calls.bind ?_ fun _ => trivial
      unfold Client.uploadFile
      split
      · trivial
      · refine Calls.bind (Calls.collect fun chunk _ => aimed_uploadChunk client chunk) fun r => ?_
        cases r with
        | error index => trivial
        | ok done =>
            exact Calls.bind (aimed_putMetadata client _) fun r => by cases r <;> trivial
  | download client filename output =>
      refine Calls.bind (Calls.bind (aimed_lookupMetadata client filename) fun r => ?_) fun _ =>
        trivial
      cases r with
      | none => trivial
      | some record =>
          refine Calls.bind (Calls.collect fun entry _ => aimed_downloadChunk client entry)
            fun r => ?_
          cases r with
          | error index => trivial
          | ok chunks =>
              dsimp only
              split <;> trivial

/-- A metadata call of a client reaches a node of the chain. -/
theorem Lists.target {site : Site} {client : Client} (h : Lists site client.metadataNodes)
    {c : Call} (haimed : Aimed client c) (hmeta : ToMetadata c) :
    ∃ v line, v < site.net.size ∧ site.metadataTarget c = some (v, line) := by
  have hresolve : ∀ {a ip port}, a ∈ client.metadataNodes → parseNodeAddr a = .endpoint ip port →
      ∃ v < site.net.size, site.net.resolve ip port = some v := by
    intro a ip port ha haddr
    rcases List.mem_iff_getElem.1 ha with ⟨v, hlength, hv⟩
    rcases h.node v a (List.getElem?_eq_some_iff.2 ⟨hlength, hv⟩) with
      ⟨ip', port', haddr', hresolve⟩
    cases haddr.symm.trans haddr'
    exact ⟨v, h.length_eq ▸ hlength, hresolve⟩
  cases c with
  | store => simp [ToMetadata, Call.IsPut, Call.IsLookup] at hmeta
  | fetch => simp [ToMetadata, Call.IsPut, Call.IsLookup] at hmeta
  | put ip port line =>
      rcases haimed with ⟨a, ha, haddr⟩
      rcases hresolve ha haddr with ⟨v, hsize, hv⟩
      exact ⟨v, line, hsize, by simp [Site.metadataTarget, hv]⟩
  | lookup ip port line =>
      rcases haimed with ⟨a, ha, haddr⟩
      rcases hresolve ha haddr with ⟨v, hsize, hv⟩
      exact ⟨v, line, hsize, by simp [Site.metadataTarget, hv]⟩

/-! ## What an upload sends -/

/-- The loop over the metadata nodes ends at the first one that acknowledges. -/
theorem follows_putMetadata {line : Bytes} {metadataNodes : List Bytes}
    {t : List (Call × Bytes)} {q : Program Call Bytes (Option Unit)}
    (h : Follows (putMetadata line metadataNodes) t q) (hne : t ≠ [])
    (hack : ∀ e ∈ t, e.2 = ascii "ACK") : q = .done (some ()) := by
  unfold putMetadata at h
  induction metadataNodes with
  | nil => exact absurd (follows_done.1 h).1 hne
  | cons a metadataNodes ih =>
      cases haddr : parseNodeAddr a with
      | noColon =>
          exact ih (by simpa [firstSome, putMetadataToNode, onNode, haddr, Program.bind] using h)
      | badPort =>
          have hthrow : Follows .throw t q := by
            simpa [firstSome, putMetadataToNode, onNode, haddr, Program.bind] using h
          exact absurd (follows_throw.1 hthrow).1 hne
      | endpoint ip port =>
          simp only [firstSome, putMetadataToNode, onNode, haddr, Program.bind] at h
          rcases follows_call.1 h with ⟨rfl, _⟩ | ⟨answer, u, rfl, hu⟩
          · exact absurd rfl hne
          · have hanswer : answer = ascii "ACK" := hack _ (List.mem_cons_self ..)
            subst hanswer
            simp only [decide_true, if_true] at hu
            exact (follows_done.1 hu).2

/-- A loop that has succeeded has sent the line. -/
theorem put_of_putMetadata {line : Bytes} {metadataNodes : List Bytes}
    {t : List (Call × Bytes)} (h : Returns (putMetadata line metadataNodes) t (some ())) :
    ∃ e ∈ t, e.1.IsPut := by
  unfold putMetadata at h
  rcases returns_firstSome_some h with ⟨_, a, _, t₁, t₂, _, rfl, _, hnode⟩
  rcases returns_bind.1 hnode with ⟨stored, u₁, u₂, rfl, hask, hdone⟩
  rcases returns_onNode.1 hask with ⟨_, _, rfl⟩ | ⟨ip, port, _, hcall⟩
  · simp at hdone
  · rcases returns_call.1 hcall with ⟨answer, u, rfl, _⟩
    exact ⟨(.put ip port line, answer), by simp, trivial⟩

theorem puts_putMetadata (line : Bytes) (metadataNodes : List Bytes) :
    (putMetadata line metadataNodes).Calls Call.IsPut :=
  Calls.firstSome fun _ _ => Calls.bind (calls_onNode fun _ _ _ => ⟨trivial, fun _ => trivial⟩)
    fun _ => trivial

theorem IsPut.not_isStore {c : Call} (h : c.IsPut) : ¬ c.IsStore :=
  not_isStore_of_toMetadata (Or.inl h)

/-- An upload whose `PUT` has been acknowledged is complete. -/
theorem complete_of_put {client : Client} {file : LocalFile} {t : List (Call × Bytes)}
    {q : Program Call Bytes Report} (h : Follows (Job.upload client file).program t q)
    {e : Call × Bytes} (he : e ∈ t) (hput : e.1.IsPut)
    (hack : ∀ e ∈ t, e.1.IsPut → e.2 = ascii "ACK") : q = .done (.uploaded .complete) := by
  have hne := (stocked_of_put h (Or.inl ⟨e, he, IsPut.not_isStore hput⟩)).1.1
  have hcalls := @calls_uploadChunks client.dht file.chunks
  rw [program_upload hne] at h
  rcases follows_bind h with ⟨p', hp', rfl⟩ | ⟨r, t₁, t₂, rfl, hr, hf⟩
  · exact absurd ((hp'.calls hcalls).2 e he) (IsPut.not_isStore hput)
  · -- The `PUT` comes after the chunks.
    have he₂ : e ∈ t₂ := by
      rcases List.mem_append.1 he with he | he
      · exact absurd ((Follows.calls hr hcalls).2 e he) (IsPut.not_isStore hput)
      · exact he
    cases r with
    | error index =>
        rw [(follows_done.1 hf).1] at he₂
        cases he₂
    | ok done =>
        have hall : ∀ e ∈ t₂, e.2 = ascii "ACK" := by
          intro e' he'
          exact hack e' (List.mem_append_right _ he')
            ((hf.calls ((puts_putMetadata _ _).bind fun _ => trivial)).2 e' he')
        rcases follows_bind hf with ⟨p', hp', rfl⟩ | ⟨r', u₁, u₂, rfl, hr', hdone⟩
        · rw [follows_putMetadata hp' (List.ne_nil_of_mem he₂) hall]
          rfl
        · rcases follows_done.1 hdone with ⟨rfl, rfl⟩
          rw [List.append_nil] at he₂ hall
          have hsome := follows_putMetadata hr' (List.ne_nil_of_mem he₂) hall
          cases hsome
          rfl

/-- A complete upload has sent its record. -/
theorem put_of_complete {client : Client} {file : LocalFile} {t : List (Call × Bytes)}
    (h : Follows (Job.upload client file).program t (.done (.uploaded .complete))) :
    ∃ e ∈ t, e.1.IsPut := by
  by_cases hne : file.chunks = []
  · rw [Job.program, Client.uploadFile, if_pos hne] at h
    cases (follows_done.1 h).2
  · rw [program_upload hne] at h
    rcases returns_bind.1 h with ⟨r, t₁, t₂, rfl, _, hf⟩
    cases r with
    | error index => cases (returns_done.1 hf).2
    | ok done =>
        rcases returns_bind.1 hf with ⟨r', u₁, u₂, rfl, hr', hdone⟩
        cases r' with
        | none => cases (returns_done.1 hdone).2
        | some _ =>
            rcases put_of_putMetadata hr' with ⟨e, he, hput⟩
            exact ⟨e, by simp [he], hput⟩

/-- A process that has turned to the metadata nodes stores no more chunks. -/
theorem not_isStore_of_turned {job : Job} {t : List (Call × Bytes)} {c : Call}
    {next : Bytes → Program Call Bytes Report} (h : Follows job.program t (.call c next))
    (hturned : (∃ e ∈ t, ToMetadata e.1) ∨ ToMetadata c) : ¬ c.IsStore := by
  rcases hturned with ⟨e, he, hmeta⟩ | hmeta
  · cases job with
    | upload client file =>
        have hother := not_isStore_of_toMetadata hmeta
        have hne := (stocked_of_put h (Or.inl ⟨e, he, hother⟩)).1.1
        rw [program_upload hne] at h
        rcases follows_bind h with ⟨p', hp', _⟩ | ⟨r, t₁, t₂, rfl, _, hf⟩
        · exact absurd ((hp'.calls (calls_uploadChunks file.chunks)).2 e he) hother
        · cases r with
          | error index => cases (follows_done.1 hf).2
          | ok done =>
              exact IsPut.not_isStore (hf.calls ((puts_putMetadata _ _).bind fun _ => trivial)).1.1
    | download client filename output =>
        have hasks := (h.calls (Job.calls _)).1.1
        rcases hasks with ⟨ip, port, rfl⟩ | ⟨ip, port, hash, _, rfl⟩ <;> exact fun hstore => hstore
  · exact not_isStore_of_toMetadata hmeta

theorem upload_of_put {job : Job} {c : Call} (hasks : job.Asks c) (hput : c.IsPut) :
    ∃ client file, job = .upload client file := by
  cases job with
  | upload client file => exact ⟨client, file, rfl⟩
  | download client filename output =>
      rcases hasks with ⟨ip, port, rfl⟩ | ⟨ip, port, hash, _, rfl⟩ <;> cases hput

/-- The record of a process is stored at the last node. -/
def ReachedTail (site : Site) (s : State Job Report) (p : Nat) (e : Applied) : Prop :=
  e ∈ s.chain.log ∧ e.node + 1 = site.net.size ∧ s.owner e.origin = some p

/-- A `PUT` is acknowledged when its record is at the last node, and an upload opens one connection
to the metadata nodes. -/
structure Sends (site : Site) (s : State Job Report) : Prop where
  answered : ∀ p proc, s.procs p = some proc → ∀ e ∈ proc.trace, e.1.IsPut →
    e.2 = ascii "ACK" ∧ ∃ a, ReachedTail site s p a
  asked : ∀ id p, s.owner id = some p → ∃ proc, s.procs p = some proc ∧
    ((∃ e ∈ proc.trace, ToMetadata e.1) ∨ proc.link = .metadata id)
  single : ∀ id id' p proc client file, s.owner id = some p → s.owner id' = some p →
    s.procs p = some proc → proc.job = .upload client file → id = id'

section

variable {site : Site} {client : Client} {nodes : Nat → MetadataNode} {s s' : State Job Report}
  {l : Label Job} {tr : List (State Job Report × Label Job)}

theorem ReachedTail.mono (hgrows : Grows s s') {p : Nat} {e : Applied}
    (h : ReachedTail site s p e) : ReachedTail site s' p e :=
  ⟨hgrows.log.subset h.1, h.2.1, hgrows.owner _ _ h.2.2⟩

theorem sends_launch : Sends site (State.launch nodes) where
  answered := by simp [State.launch]
  asked := by simp [State.launch]
  single := by simp [State.launch]

theorem firstFrame_ack : firstFrame (ascii "ACK") = ascii "ACK" := by
  have hlength : (ascii "ACK").length = 3 := by decide
  exact firstFrame_of_lt (by rw [hlength]; norm_num)

/-- What the reply to a `PUT` says. -/
theorem put_answered (hwired : Wired site.net nodes) (hcalm : Chain.Calm site.net nodes s.chain)
    {p id : Nat} {file : LocalFile} {conn : Metadata.Conn} {reply : Bytes}
    (hfile : WellFormed file.record) (hconn : s.chain.conns id = some conn)
    (hcommand : conn.command = putLine file.record) (hparent : conn.parent = none)
    (howner : s.owner id = some p) (hreply : conn.phase = .replied reply) :
    reply = ascii "ACK" ∧ ∃ e, ReachedTail site s p e := by
  have hput : request conn.command = some (.put file.record) := by
    rw [hcommand]
    exact request_putLine hfile
  have hsize := (hcalm.basic.opened id conn hconn).2
  have horigin := hcalm.basic.own id conn hconn hparent
  have hpos := hwired.size_pos
  have hstored := hcalm.answers.carried id conn file.record hconn hput (Or.inl ⟨reply, hreply⟩)
    (site.net.size - 1) (by omega) (by omega)
  refine ⟨hcalm.answers.acked id conn file.record reply hconn hput hreply, _, hstored, ?_, ?_⟩
  · show site.net.size - 1 + 1 = site.net.size
    omega
  · rw [horigin]
    exact howner

/-- A record in the log is that of an upload, as it stands. -/
theorem upload_of_log (hcoherent : Coherent site Job.program nodes s) (hrequests : Requests s)
    (hfit : ∀ p proc, s.procs p = some proc → proc.job.client = client ∧ proc.job.Fit)
    {e : Applied} (he : e ∈ s.chain.log) :
    ∃ u proc file, s.owner e.origin = some u ∧ s.procs u = some proc ∧
      proc.job = .upload client file ∧ e.record = file.record ∧ Stocked client file proc.trace ∧
      Turned proc := by
  rcases source_of_log hcoherent hrequests he with
    ⟨u, proc, client', file, howner, hu, hjob, hparse, hstocked, _⟩
  rcases (hcoherent.owned _ _ howner).2 with ⟨proc', hu', hturned⟩
  cases hu.symm.trans hu'
  have hjobfit := hfit u proc hu
  rw [hjob] at hjobfit
  rcases hjobfit with ⟨rfl, hjobfit⟩
  rw [parsePut_putLine (wellFormed_of_fit hjobfit)] at hparse
  exact ⟨u, proc, file, howner, hu, hjob, (Option.some.inj hparse).symm, hstocked, hturned⟩

/-- An upload that has not sent its record yet has no connection to the metadata nodes. -/
theorem Sends.unowned (hcoherent : Coherent site Job.program nodes s) (h : Sends site s) {p : Nat}
    {proc : Proc Job Report} {client : Client} {file : LocalFile} {c : Call}
    {next : Bytes → Program Call Bytes Report} (hp : s.procs p = some proc)
    (hjob : proc.job = .upload client file) (hlink : proc.link = .idle)
    (hcall : proc.program = .call c next) (id : Nat) : s.owner id ≠ some p := by
  intro howner
  rcases h.asked id p howner with ⟨proc', hp', hasked⟩
  cases hp.symm.trans hp'
  rcases hasked with ⟨e, he, hmeta⟩ | hmetadata
  · have hfollows := (hcoherent.process p proc hp).2
    have hasks := (hfollows.calls proc.job.calls).2 e he
    rw [hjob] at hfollows hasks
    have hput : e.1.IsPut := by
      rcases hasks with ⟨ip, port, chunk, _, heq⟩ | ⟨ip, port, heq⟩
      · rw [heq] at hmeta
        simp [ToMetadata, Call.IsPut, Call.IsLookup] at hmeta
      · rw [heq]
        trivial
    have hdone := complete_of_put hfollows he hput fun e he hput => (h.answered p proc hp e he hput).1
    cases hcall.symm.trans hdone
  · cases hlink.symm.trans hmetadata

theorem Sends.step (hwired : Wired site.net nodes) (hlists : Lists site client.metadataNodes)
    (hcoherent : Coherent site Job.program nodes s) (hstocks : Stocks site s)
    (hcalm : Chain.Calm site.net nodes s.chain)
    (hfit : ∀ p proc, s.procs p = some proc → proc.job.client = client ∧ proc.job.Fit)
    (h : Sends site s) (honly : OnlyCrashes site s l) (hstep : Step site Job.program s l s') :
    Sends site s' where
  answered := by
    have hgrows := hcoherent.grows hstep
    intro p proc hp e he hput
    rcases hstep.process hp with ⟨_, _, _, rfl⟩ | ⟨proc', hp', hacts⟩
    · cases he
    · have hold : e ∈ proc'.trace → e.2 = ascii "ACK" ∧ ∃ a, ReachedTail site s' p a := by
        intro he
        rcases h.answered p proc' hp' e he hput with ⟨hack, a, ha⟩
        exact ⟨hack, a, ha.mono hgrows⟩
      cases hacts with
      | refuse c next _ hcall =>
          rcases List.mem_append.1 he with he | he
          · exact hold he
          · -- A metadata node is never out of reach.
            rw [List.mem_singleton.1 he] at hput
            have haimed := (((hcoherent.process p proc' hp').2.calls proc'.job.aimed).1)
            rw [hcall, (hfit p proc' hp').1] at haimed
            rcases hlists.target haimed.1 (Or.inl hput) with ⟨v, line, _, htarget⟩
            cases (honly proc' c next hp' hcall).1.symm.trans htarget
      | finish c next i conn a hlink hcall hdone =>
          rcases List.mem_append.1 he with he | he
          · exact hold he
          · rw [List.mem_singleton.1 he] at hput
            rcases hstocks.linked p proc' i conn hp' hlink with ⟨c', next', hcall', htarget, _⟩
            cases hcall.symm.trans hcall'
            cases c with
            | put => cases htarget
            | store => cases hput
            | fetch => cases hput
            | lookup => cases hput
      | hangUp c next id conn hlink hcall hconn hover =>
          rcases hover with hlost | hclosed
          · cases hlost.symm.trans (hcalm.wires.kept id conn hconn)
          · exact absurd hclosed (hcalm.wires.notClosed id conn hconn)
      | hear c next id conn reply hlink hcall hconn hreply =>
          rcases List.mem_append.1 he with he | he
          · exact hold he
          · rw [List.mem_singleton.1 he] at hput ⊢
            rcases hcoherent.dialed p proc' id hp' hlink with
              ⟨c', next', v, line, conn', hcall', htarget, hconn', _, hcommand, hparent, howner⟩
            cases hcall.symm.trans hcall'
            cases hconn.symm.trans hconn'
            have hasks := hcoherent.asks hp' hcall
            have hline := line_of_asks hasks htarget
            have hjobfit := (hfit p proc' hp').2
            rcases upload_of_put hasks hput with ⟨client', file, hjob⟩
            rw [hjob] at hjobfit hline
            rw [hline, firstFrame_of_lt hjobfit.1] at hcommand
            rcases put_answered hwired hcalm (wellFormed_of_fit hjobfit) hconn hcommand hparent
              howner hreply with ⟨rfl, a, ha⟩
            exact ⟨firstFrame_ack, a, ha.mono hgrows⟩
      | same => exact hold he
      | dialStorage => exact hold he
      | dialMetadata => exact hold he
      | transfer => exact hold he
      | lose => exact hold he
  asked := by
    intro id p howner
    rcases hstep.owner howner with hold | ⟨_, _, proc, c, next, v, line, _, _, _, _, hp', _⟩
    · rcases h.asked id p hold with ⟨proc, hp, hasked⟩
      rcases hstep.process_of hcoherent.fresh hp with ⟨proc', hp', hacts⟩
      refine ⟨proc', hp', ?_⟩
      rcases hasked with ⟨e, he, hmeta⟩ | hlink
      · rcases hacts.succeeds.trace with ⟨t, ht⟩
        exact Or.inl ⟨e, ht ▸ List.mem_append_left _ he, hmeta⟩
      · have hanswer : ∀ c next a, proc.program = .call c next →
            ∃ e ∈ (proc.answer c next a).trace, ToMetadata e.1 := by
          intro c next a hcall
          rcases hcoherent.dialed p proc id hp hlink with
            ⟨c', next', v, line, _, hcall', htarget, _⟩
          cases hcall.symm.trans hcall'
          exact ⟨(c, a), by simp [Proc.answer], toMetadata_of_target htarget⟩
        cases hacts with
        | same => exact Or.inr hlink
        | hangUp c next _ _ _ hcall _ _ => exact Or.inl (hanswer c next _ hcall)
        | hear c next _ _ _ _ hcall _ _ => exact Or.inl (hanswer c next _ hcall)
        | dialStorage _ _ _ hidle => cases hlink.symm.trans hidle
        | dialMetadata _ _ _ _ hidle => cases hlink.symm.trans hidle
        | refuse _ _ hidle => cases hlink.symm.trans hidle
        | transfer _ _ _ hstorage => cases hlink.symm.trans hstorage
        | lose _ _ hstorage => cases hlink.symm.trans hstorage
        | finish _ _ _ _ _ hstorage => cases hlink.symm.trans hstorage
    · exact ⟨_, hp', Or.inr rfl⟩
  single := by
    intro id id' p proc client file howner howner' hp hjob
    -- Before a process dials, it owns no connection.
    have hfirst : ∀ {q : Proc Job Report} {c next}, s.procs p = some q → q.link = .idle →
        q.program = .call c next → ∀ k, s.owner k ≠ some p := by
      intro q c next hq hidle hcall k
      rcases hstep.process_of hcoherent.fresh hq with ⟨q', hq', hacts⟩
      cases hp.symm.trans hq'
      exact h.unowned hcoherent hq (hacts.succeeds.job.symm.trans hjob) hidle hcall k
    rcases hstep.owner howner with hold | ⟨rfl, _, q, c, next, _, _, hq, hidle, hcall, _, _, _⟩
    · rcases hstep.owner howner' with hold' | ⟨_, _, q, c, next, _, _, hq, hidle, hcall, _, _, _⟩
      · rcases h.asked id p hold with ⟨q, hq, _⟩
        rcases hstep.process_of hcoherent.fresh hq with ⟨q', hq', hacts⟩
        cases hp.symm.trans hq'
        exact h.single id id' p q client file hold hold' hq (hacts.succeeds.job.symm.trans hjob)
      · exact absurd hold (hfirst hq hidle hcall id)
    · rcases hstep.owner howner' with hold' | ⟨rfl, _⟩
      · exact absurd hold' (hfirst hq hidle hcall id')
      · rfl

theorem Sends.run (hwired : Wired site.net nodes) (hlists : Lists site client.metadataNodes)
    (h : Run (Cluster.step site Job.program) (Permitted site client) (State.launch nodes) tr s) :
    Sends site s :=
  h.state_invariant sends_launch fun _ _ _ _ hrun hI hl hs =>
    hI.step hwired hlists (Coherent.run hrun) (Stocks.run hrun) (calm_of_run hwired hrun)
      (jobs_fit hrun) hl.2 (step_cases hs)

end

end Cluster
end Dfs

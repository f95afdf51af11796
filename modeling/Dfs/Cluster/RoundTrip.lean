import Dfs.Cluster.Calm
import Dfs.Metadata.Extension

/-!
# Downloads after uploads

A download that starts when some upload of its name is complete: it looks the name up at the last
node, which holds the record of one upload by then, and a storage node delivers the chunks that it
has acknowledged to that upload unless it has crashed.  This is what one step keeps of such a
download.
-/

namespace Dfs
namespace Cluster

open Bytes TextScan Network Common Client Storage Dht Metadata Program

/-! ## The first call of a download -/

/-- A download asks the last node first, and goes on with the record it finds there. -/
theorem download_asks {site : Site} {client : Client} (hlists : Lists site client.metadataNodes)
    (hpos : 0 < site.net.size) (filename : Bytes) (output : OutputFile) :
    ∃ ip port next, (Job.download client filename output).program =
        .call (.lookup ip port (getLine filename)) next ∧
      site.net.resolve ip port = some (site.net.size - 1) ∧
      ∀ answer record, readFound filename answer = some record → isFound record = true →
        next answer = (downloadChunks client.dht record output).bind fun report =>
          .done (.downloaded report) := by
  cases hasked : client.metadataNodes.reverse with
  | nil =>
      have hlength := hlists.length_eq
      rw [List.reverse_eq_nil_iff.1 hasked] at hlength
      exact absurd hlength hpos.ne
  | cons a asked =>
      have hlast : client.metadataNodes[site.net.size - 1]? = some a := by
        have hnodes : client.metadataNodes = asked.reverse ++ [a] := by
          rw [← List.reverse_reverse client.metadataNodes, hasked, List.reverse_cons]
        rw [← hlists.length_eq, hnodes]
        simp
      rcases hlists.node _ a hlast with ⟨ip, port, haddr, hresolve⟩
      have hprogram : ∃ next, (Job.download client filename output).program =
            .call (.lookup ip port (getLine filename)) next ∧
          ∀ answer record, readFound filename answer = some record → isFound record = true →
            next answer = (downloadChunks client.dht record output).bind fun report =>
              .done (.downloaded report) := by
        simp only [Job.program, Client.downloadFile, lookupMetadata, hasked, firstSome,
          getMetadataFromNode, onNode, haddr, Program.bind]
        refine ⟨_, rfl, ?_⟩
        intro answer record hfound hrecord
        simp [hfound, hrecord, Program.bind]
      rcases hprogram with ⟨next, hcall, hnext⟩
      exact ⟨ip, port, next, hcall, hresolve, hnext⟩

/-! ## What the last node answers -/

section

variable {site : Site} {client : Client} {nodes : Nat → MetadataNode} {s₁ s s' : State Job Report}
  {l : Label Job} {tr : List (State Job Report × Label Job)} {filename : Bytes}

/-- The reply of the last node to a lookup, with its stores up to some moment since `s₁`. -/
def Current (site : Site) (nodes : Nat → MetadataNode) (s₁ : State Job Report) (filename : Bytes)
    (s : State Job Report) (reply : Bytes) : Prop :=
  ∃ L, s₁.chain.log <+: L ∧ L <+: s.chain.log ∧
    reply = MetadataNode.lookupMessage (storedAt nodes L (site.net.size - 1) filename)

/-- What has happened since `s₁`: lookups at the last node have been answered with what it held. -/
structure Since (site : Site) (nodes : Nat → MetadataNode) (s₁ : State Job Report)
    (filename : Bytes) (s : State Job Report) : Prop where
  conns : Chain.Persist s₁.chain s.chain
  log : s₁.chain.log <+: s.chain.log
  reads : Chain.Reads s₁.chain (site.net.size - 1) filename (Current site nodes s₁ filename s)
    s.chain

theorem Since.start : Since site nodes s filename s where
  conns := Chain.Persist.refl _
  log := List.prefix_refl _
  reads := fun _ _ hd hnew => by cases hnew.symm.trans hd

theorem Step.log_isPrefix (h : Step site Job.program s l s') : s.chain.log <+: s'.chain.log := by
  rcases h.chain_step with heq | ⟨lc, hlc⟩
  · rw [heq]
  · exact (Chain.step_cases hlc).log_isPrefix

theorem Since.step (hwired : Wired site.net nodes) (hcoherent : Coherent site Job.program nodes s)
    (hcalm : Chain.Calm site.net nodes s.chain) (h : Since site nodes s₁ filename s)
    (hstep : Step site Job.program s l s') : Since site nodes s₁ filename s' where
  conns := h.conns.trans (hcoherent.grows hstep).conns
  log := h.log.trans hstep.log_isPrefix
  reads := by
    have hmono : ∀ reply, Current site nodes s₁ filename s reply →
        Current site nodes s₁ filename s' reply := by
      rintro reply ⟨L, hfrom, hto, heq⟩
      exact ⟨L, hfrom, hto.trans hstep.log_isPrefix, heq⟩
    rcases hstep.chain_step with heq | ⟨lc, hlc⟩
    · rw [heq]
      intro g d hd hnew hnode hget
      exact (h.reads g d hd hnew hnode hget).imp id (Or.imp id (Or.imp id
        fun ⟨reply, hphase, hreply⟩ => ⟨reply, hphase, hmono reply hreply⟩))
    · have hpos := hwired.size_pos
      have hlast := hwired.last (site.net.size - 1) (by omega)
      refine h.reads.step (Chain.step_cases hlc) ?_ ?_ hmono
      · rw [hcalm.wires.servesReads]
        exact hlast.2
      · refine ⟨s.chain.log, h.log, hstep.log_isPrefix, ?_⟩
        rw [hcalm.basic.store]

/-! ## What storage nodes answer -/

/-- Process `u` has the acknowledgement of storage node `i` for the chunk under a hash. -/
def Confirmed (site : Site) (s : State Job Report) (u : Nat) (hash : Bytes) (i : Nat) : Prop :=
  ∃ proc ip port data, s.procs u = some proc ∧
    (.store ip port hash data, ascii "ACK") ∈ proc.trace ∧ site.storageAt ip port = some i

variable {hash : Bytes} {u i : Nat}

theorem Confirmed.held (hstocks : Stocks site s) (h : Confirmed site s u hash i) :
    (s.storage i).storage hash ≠ none := by
  rcases h with ⟨proc, ip, port, data, hu, hmem, hi⟩
  rcases hstocks.acked u proc ip port hash data hu hmem with ⟨j, hj, hheld⟩
  cases hi.symm.trans hj
  exact hheld

/-- A process that has turned to the metadata nodes gets no further acknowledgement. -/
theorem Confirmed.back (hcoherent : Coherent site Job.program nodes s)
    (hstep : Step site Job.program s l s') {proc : Proc Job Report} (hu : s.procs u = some proc)
    (hturned : Turned proc) (h : Confirmed site s' u hash i) : Confirmed site s u hash i := by
  rcases h with ⟨proc', ip, port, data, hu', hmem, hi⟩
  rcases hstep.process_of hcoherent.fresh hu with ⟨proc'', hu'', hacts⟩
  cases hu'.symm.trans hu''
  refine ⟨proc, ip, port, data, hu, ?_, hi⟩
  cases hacts.succeeds with
  | same => exact hmem
  | setLink link => exact hmem
  | answer c next a hcall =>
      rcases List.mem_append.1 hmem with hmem | hmem
      · exact hmem
      · have hfollows := (hcoherent.process u proc hu).2
        rw [hcall] at hfollows
        have hother := not_isStore_of_turned hfollows (hturned.imp id
          fun ⟨c', next', hcall', hmeta⟩ => by cases hcall.symm.trans hcall'; exact hmeta)
        cases List.mem_singleton.1 hmem
        exact absurd trivial hother

/-- What the fetches of a process have been answered with, and what the current one will be: only a
node that has crashed fails to deliver a chunk that it has acknowledged to `u`. -/
structure Fetches (site : Site) (s : State Job Report) (u : Nat) (proc : Proc Job Report)
    (rest : List (Call × Bytes)) : Prop where
  delivered : ∀ ip port hash a, (.fetch ip port hash, a) ∈ rest → a = [] ∨ Uploaded s hash a
  missed : ∀ ip port hash i, (.fetch ip port hash, []) ∈ rest → site.storageAt ip port = some i →
    Confirmed site s u hash i → (s.storage i).running = false
  arriving : ∀ ip port hash next i conn, proc.program = .call (.fetch ip port hash) next →
    proc.link = .storage i conn → Confirmed site s u hash i → (s.storage i).running = true →
    FetchPos hash (Uploaded s hash) true conn

theorem Fetches.idle {proc : Proc Job Report} (hlink : proc.link = .idle) :
    Fetches site s u proc [] where
  delivered := by simp
  missed := by simp
  arriving := by simp [hlink]

/-- A step that leaves the process alone. -/
theorem Fetches.mono (hcoherent : Coherent site Job.program nodes s)
    (hstep : Step site Job.program s l s') {proc proc' : Proc Job Report}
    {rest : List (Call × Bytes)} (hu : s.procs u = some proc') (hturned : Turned proc')
    (h : Fetches site s u proc rest) : Fetches site s' u proc rest := by
  have hgrows := hcoherent.grows hstep
  have hback : ∀ {hash i}, Confirmed site s' u hash i → Confirmed site s u hash i :=
    fun hconfirmed => hconfirmed.back hcoherent hstep hu hturned
  refine ⟨?_, ?_, ?_⟩
  · intro ip port hash a hmem
    exact (h.delivered ip port hash a hmem).imp id fun hup => hup.mono hgrows
  · intro ip port hash i hmem hi hconfirmed
    cases hrun : (s'.storage i).running with
    | false => rfl
    | true =>
        have hbefore := (hgrows.storage i).running hrun
        cases hbefore.symm.trans (h.missed ip port hash i hmem hi (hback hconfirmed))
  · intro ip port hash next i conn hcall hlink hconfirmed hrun
    exact (h.arriving ip port hash next i conn hcall hlink (hback hconfirmed)
      ((hgrows.storage i).running hrun)).mono fun _ hup => hup.mono hgrows

/-- A step of the process itself. -/
theorem Fetches.acts (hcoherent : Coherent site Job.program nodes s) (hstocks : Stocks site s)
    (honly : OnlyCrashes site s l) (hstep : Step site Job.program s l s') {p : Nat}
    {proc proc' uproc : Proc Job Report} {rest : List (Call × Bytes)} (hp : s.procs p = some proc)
    (hu : s.procs u = some uproc) (hturned : Turned uproc) (h : Fetches site s u proc rest)
    (hacts : Acts site s s' p proc l proc') :
    ∃ more, proc'.trace = proc.trace ++ more ∧ Fetches site s' u proc' (rest ++ more) := by
  have hgrows := hcoherent.grows hstep
  have hmono := h.mono hcoherent hstep hu hturned
  have hback : ∀ {hash i}, Confirmed site s' u hash i → Confirmed site s u hash i :=
    fun hconfirmed => hconfirmed.back hcoherent hstep hu hturned
  -- A call that is answered, by a storage node or not at all.
  have hanswer : ∀ c next a, proc.program = .call c next →
      (∀ ip port hash, c = .fetch ip port hash → (a = [] ∨ Uploaded s hash a) ∧
        ∀ i, a = [] → site.storageAt ip port = some i → Confirmed site s u hash i →
          (s.storage i).running = false) →
      ∃ more, (proc.answer c next a).trace = proc.trace ++ more ∧
        Fetches site s' u (proc.answer c next a) (rest ++ more) := by
    intro c next a hcall hfetch
    refine ⟨[(c, a)], rfl, ?_, ?_, fun ip port hash next i conn _ hlink => by cases hlink⟩
    · intro ip port hash a' hmem
      rcases List.mem_append.1 hmem with hmem | hmem
      · exact hmono.delivered ip port hash a' hmem
      · cases List.mem_singleton.1 hmem
        exact (hfetch ip port hash rfl).1.imp id fun hup => hup.mono hgrows
    · intro ip port hash i hmem hi hconfirmed
      rcases List.mem_append.1 hmem with hmem | hmem
      · exact hmono.missed ip port hash i hmem hi hconfirmed
      · cases List.mem_singleton.1 hmem
        have hdown := (hfetch ip port hash rfl).2 i rfl hi (hback hconfirmed)
        cases hrun : (s'.storage i).running with
        | false => rfl
        | true => cases ((hgrows.storage i).running hrun).symm.trans hdown
  have hmetadata : ∀ c next a v line, proc.program = .call c next →
      site.metadataTarget c = some (v, line) →
      ∃ more, (proc.answer c next a).trace = proc.trace ++ more ∧
        Fetches site s' u (proc.answer c next a) (rest ++ more) := by
    intro c next a v line hcall htarget
    refine hanswer c next a hcall ?_
    rintro ip port hash rfl
    cases htarget
  cases hacts with
  | same => exact ⟨[], by simp, by simpa using hmono⟩
  | dialStorage c next i hidle hcall htarget hrun =>
      refine ⟨[], by simp [Proc.setLink], ?_⟩
      rw [List.append_nil]
      refine ⟨hmono.delivered, hmono.missed, ?_⟩
      intro ip port hash next' j conn hcall' hlink _ _
      cases hlink
      cases hcall.symm.trans hcall'
      exact .command
  | dialMetadata c next v line hidle hcall htarget _ _ =>
      refine ⟨[], by simp [Proc.setLink], ?_⟩
      rw [List.append_nil]
      exact ⟨hmono.delivered, hmono.missed, fun ip port hash next i conn _ hlink => by cases hlink⟩
  | refuse c next hidle hcall =>
      refine hanswer c next [] hcall ?_
      rintro ip port hash rfl
      exact ⟨Or.inl rfl, fun i _ hi _ => (honly proc _ next hp hcall).2 i hi⟩
  | transfer i conn conn' hlink hadvance =>
      refine ⟨[], by simp [Proc.setLink], ?_⟩
      rw [List.append_nil]
      refine ⟨hmono.delivered, hmono.missed, ?_⟩
      intro ip port hash next j conn₂ hcall hlink' hconfirmed hrun
      cases hlink'
      have hheld := hstocks.held i
      have hup := hback hconfirmed
      rcases hstocks.linked p proc i conn hp hlink with ⟨c, next', hcall', htarget, hcarries⟩
      have hpos := h.arriving ip port hash next i conn hcall hlink hup
        ((hgrows.storage i).running hrun)
      rcases hup.held hstocks |> Option.ne_none_iff_exists'.1 with ⟨data, hdata⟩
      have hword := (hheld hash data hdata).isWord
      rcases hpos.advance hword (fun data hdata =>
        ⟨(hheld hash data hdata).fits.ne_nil, hheld hash data hdata⟩) hadvance with
        ⟨_, arrives, hpos', harrives⟩
      -- The node holds the chunk, so what it sends is the chunk.
      have htrue : arrives = true := harrives rfl (by rw [hdata]; simp)
      subst htrue
      exact hpos'.mono fun _ hup => hup.mono hgrows
  | lose i conn hlink =>
      refine ⟨[], by simp [Proc.setLink], ?_⟩
      rw [List.append_nil]
      refine ⟨hmono.delivered, hmono.missed, ?_⟩
      intro ip port hash next j conn' hcall hlink' _ hrun
      -- The node of a connection that breaks has crashed.
      cases hlink'
      cases ((hgrows.storage i).running hrun).symm.trans (honly proc i conn hp hlink)
  | finish c next i conn a hlink hcall hdone =>
      refine hanswer c next a hcall ?_
      rintro ip port hash rfl
      rcases hstocks.linked p proc i conn hp hlink with ⟨c', next', hcall', htarget, hcarries⟩
      cases hcall.symm.trans hcall'
      cases hcarries with
      | fetch _ _ _ arrives _ hword hpos =>
          refine ⟨(hpos.answer hdone).symm.imp And.left id, ?_⟩
          intro j hnil hj hconfirmed
          cases htarget.symm.trans hj
          cases hrun : (s.storage i).running with
          | false => rfl
          | true =>
              have harrives := h.arriving ip port hash next i conn hcall hlink hconfirmed hrun
              rcases harrives.answer hdone with hup | ⟨_, hfalse⟩
              · exact absurd hnil hup.fits.ne_nil
              · cases hfalse
  | hangUp c next id conn hlink hcall hconn hover =>
      rcases hcoherent.dialed p proc id hp hlink with ⟨c', next', v, line, _, hcall', htarget, _⟩
      cases hcall.symm.trans hcall'
      exact hmetadata c next _ v line hcall htarget
  | hear c next id conn reply hlink hcall hconn hreply =>
      rcases hcoherent.dialed p proc id hp hlink with ⟨c', next', v, line, _, hcall', htarget, _⟩
      cases hcall.symm.trans hcall'
      exact hmetadata c next _ v line hcall htarget

/-! ## The upload whose record is found -/

/-- The upload `u` of a file under the name, whose record came to the last node no earlier than any
record of that name in `s₁`. -/
structure Source (site : Site) (client : Client) (s₁ s : State Job Report) (filename : Bytes)
    (u : Nat) (file : LocalFile) (e : Applied) : Prop where
  upload : ∃ uproc, s.procs u = some uproc ∧ uproc.job = .upload client file ∧ Turned uproc ∧
    Stocked client file uproc.trace
  fits : (Job.upload client file).Fit
  name : baseName file.path = filename
  record : e.record = file.record
  reached : ReachedTail site s u e
  recent : ∀ e₀ ∈ s₁.chain.log, e₀.node + 1 = site.net.size → e₀.record.filename = filename →
    Chain.NoEarlier s.chain.log e₀ e

theorem Source.mono {file : LocalFile} {e : Applied} (hgrows : Grows s s')
    (h : Source site client s₁ s filename u file e) :
    Source site client s₁ s' filename u file e where
  upload := by
    rcases h.upload with ⟨uproc, hu, hjob, hturned, hstocked⟩
    rcases hgrows.process u uproc hu with ⟨uproc', hu', hsucc⟩
    rcases hsucc.trace with ⟨t, ht⟩
    exact ⟨uproc', hu', hsucc.job.trans hjob, hsucc.turned hturned, ht ▸ hstocked.append t⟩
  fits := h.fits
  name := h.name
  record := h.record
  reached := h.reached.mono hgrows
  recent := fun e₀ he₀ hnode hname => (h.recent e₀ he₀ hnode hname).mono hgrows.log

/-- The last node answers with the record of such an upload, once there is one. -/
theorem Current.source (hcoherent : Coherent site Job.program nodes s) (hrequests : Requests s)
    (hfit : ∀ p proc, s.procs p = some proc → proc.job.client = client ∧ proc.job.Fit)
    (hearlier : ∃ e₀ ∈ s₁.chain.log, e₀.node + 1 = site.net.size ∧ e₀.record.filename = filename)
    {reply : Bytes} (h : Current site nodes s₁ filename s reply) :
    ∃ u file e, Source site client s₁ s filename u file e ∧
      reply = MetadataNode.foundMessage file.record := by
  rcases h with ⟨L, hfrom, hto, rfl⟩
  rcases hearlier with ⟨e₀, he₀, hnode₀, hname₀⟩
  have hlast₀ : e₀.node = site.net.size - 1 := by omega
  cases hlast : lastWrite L (site.net.size - 1) filename with
  | none => exact absurd hname₀ (lastWrite_eq_none.1 hlast e₀ (hfrom.subset he₀) hlast₀)
  | some e =>
      rcases lastWrite_eq_some hlast with ⟨he, hnode, hname⟩
      rcases upload_of_log hcoherent hrequests hfit (hto.subset he) with
        ⟨u, uproc, file, howner, hu, hjob, hrecord, hstocked, hturned⟩
      have hjobfit := (hfit u uproc hu).2
      rw [hjob] at hjobfit
      refine ⟨u, file, e, ⟨⟨uproc, hu, hjob, hturned, hstocked⟩, hjobfit, ?_, hrecord, ?_, ?_⟩, ?_⟩
      · rw [hrecord] at hname
        exact hname
      · exact ⟨hto.subset he, by omega, howner⟩
      · intro e₁ he₁ hnode₁ hname₁
        -- Nothing under the name has come to the last node after `e`.
        have hnode₁ : e₁.node = site.net.size - 1 := by omega
        refine ⟨hnode.trans hnode₁.symm, hname.trans hname₁.symm, ?_⟩
        by_cases heq : e₁ = e
        · exact Or.inl heq.symm
        · exact Or.inr ((sublist_lastWrite hlast (hfrom.subset he₁) hnode₁ hname₁ heq).trans
            hto.sublist)
      · rw [storedAt, hlast, ← hrecord]
        rfl

/-- The `FOUND` message of a record whose `PUT` line fits a frame fits one as well. -/
theorem firstFrame_foundMessage {record : FileMetadata} (h : WellFormed record)
    (hline : (putLine record).length < 2 ^ 32) :
    firstFrame (MetadataNode.foundMessage record) = MetadataNode.foundMessage record := by
  refine firstFrame_of_lt ?_
  have hname := List.length_pos_iff.2 h.filename.ne_nil
  have hput : (ascii "PUT ").length = 4 := by decide
  have hspace : (ascii " ").length = 1 := by decide
  have hfound : (ascii "FOUND ").length = 6 := by decide
  simp only [putLine, List.length_append, hput, hspace] at hline
  rw [MetadataNode.foundMessage, List.length_append, hfound]
  omega

theorem isFound_of_wellFormed {record : FileMetadata} (h : WellFormed record) :
    isFound record = true := by
  simp [isFound, h.filename.ne_nil]

/-! ## From the lookup to the last chunk -/

/-- Where a download of the name is that has started since `s₁`: it asks the last node, or it
fetches the chunks of an upload that it has found there. -/
inductive Goes (site : Site) (client : Client) (s₁ s : State Job Report) (filename : Bytes)
    (output : OutputFile) (proc : Proc Job Report) : Prop where
  | asking : proc.trace = [] →
      proc.link = .idle ∨ (∃ id, proc.link = .metadata id ∧ s₁.chain.conns id = none) →
      Goes site client s₁ s filename output proc
  | fetching (u : Nat) (file : LocalFile) (e : Applied) (lookup : Call × Bytes)
      (rest : List (Call × Bytes)) : Source site client s₁ s filename u file e →
      proc.trace = lookup :: rest →
      Follows ((downloadChunks client.dht file.record output).bind fun report =>
        .done (.downloaded report)) rest proc.program →
      Fetches site s u proc rest → Goes site client s₁ s filename output proc

/-- The fetches go on. -/
theorem Goes.fetch (hcoherent : Coherent site Job.program nodes s) (hstocks : Stocks site s)
    (honly : OnlyCrashes site s l) (hstep : Step site Job.program s l s') {p : Nat}
    {proc proc' : Proc Job Report} {output : OutputFile} {file : LocalFile} {e : Applied}
    {lookup : Call × Bytes} {rest : List (Call × Bytes)} (hp : s.procs p = some proc)
    (hsource : Source site client s₁ s filename u file e) (htrace : proc.trace = lookup :: rest)
    (hfollows : Follows ((downloadChunks client.dht file.record output).bind fun report =>
      .done (.downloaded report)) rest proc.program)
    (hfetches : Fetches site s u proc rest) (hacts : Acts site s s' p proc l proc') :
    Goes site client s₁ s' filename output proc' := by
  rcases hsource.upload with ⟨uproc, hu, _, hturned, _⟩
  rcases hfetches.acts hcoherent hstocks honly hstep hp hu hturned hacts with
    ⟨more, hmore, hfetches'⟩
  refine .fetching u file e lookup (rest ++ more) (hsource.mono (hcoherent.grows hstep)) ?_ ?_
    hfetches'
  · rw [hmore, htrace, List.cons_append]
  · cases hacts.succeeds with
    | same =>
        have hnil : more = [] := List.self_eq_append_right.1 hmore
        simpa [hnil] using hfollows
    | setLink link =>
        have hnil : more = [] := List.self_eq_append_right.1 hmore
        rw [hnil, List.append_nil]
        exact hfollows
    | answer c next a hcall =>
        have hone : more = [(c, a)] := (List.append_cancel_left hmore).symm
        rw [hone]
        exact .answer a (hcall ▸ hfollows)

theorem Goes.step (hwired : Wired site.net nodes) (hlists : Lists site client.metadataNodes)
    (hcoherent : Coherent site Job.program nodes s) (hstocks : Stocks site s)
    (hcalm : Chain.Calm site.net nodes s.chain) (hrequests : Requests s)
    (hfit : ∀ p proc, s.procs p = some proc → proc.job.client = client ∧ proc.job.Fit)
    (hsince : Since site nodes s₁ filename s) (hname : IsWord filename)
    (hearlier : ∃ e₀ ∈ s₁.chain.log, e₀.node + 1 = site.net.size ∧ e₀.record.filename = filename)
    (honly : OnlyCrashes site s l) (hstep : Step site Job.program s l s') {p : Nat}
    {proc proc' : Proc Job Report} {output : OutputFile} (hp : s.procs p = some proc)
    (hjob : proc.job = .download client filename output)
    (h : Goes site client s₁ s filename output proc) (hacts : Acts site s s' p proc l proc') :
    Goes site client s₁ s' filename output proc' := by
  cases h with
  | fetching u file e lookup rest hsource htrace hfollows hfetches =>
      exact Goes.fetch hcoherent hstocks honly hstep hp hsource htrace hfollows hfetches hacts
  | asking htrace hlink =>
      -- The process is at its first call, the lookup at the last node.
      have hprogram : proc.program = (Job.download client filename output).program := by
        have hfollows := (hcoherent.process p proc hp).2
        rw [htrace, hjob] at hfollows
        exact follows_nil hfollows
      rcases download_asks hlists hwired.size_pos filename output with
        ⟨ip, port, next₀, hasks, hresolve, hnext⟩
      have hcall₀ := hprogram.trans hasks
      have htarget₀ : site.metadataTarget (.lookup ip port (getLine filename)) =
          some (site.net.size - 1, getLine filename) := by
        simp [Site.metadataTarget, hresolve]
      have hnotStorage : ∀ i conn, proc.link ≠ .storage i conn := by
        intro i conn hstorage
        rcases hlink with hidle | ⟨id, hmeta, _⟩
        · cases hidle.symm.trans hstorage
        · cases hmeta.symm.trans hstorage
      cases hacts with
      | same => exact .asking htrace hlink
      | dialStorage c next i _ hcall htarget _ =>
          cases hcall₀.symm.trans hcall
          cases htarget
      | dialMetadata c next v line _ _ _ _ _ =>
          refine .asking htrace (Or.inr ⟨_, rfl, ?_⟩)
          -- The number of the new connection was not in use at `s₁`.
          cases hconn : s₁.chain.conns s.chain.opened with
          | none => rfl
          | some d =>
              rcases hsince.conns _ d hconn with ⟨_, _, hconn'⟩
              cases hcoherent.chain.fresh.symm.trans hconn'
      | refuse c next _ hcall =>
          cases hcall₀.symm.trans hcall
          cases (honly proc _ _ hp hcall₀).1.symm.trans htarget₀
      | transfer i conn _ hstorage _ => exact absurd hstorage (hnotStorage i conn)
      | lose i conn hstorage => exact absurd hstorage (hnotStorage i conn)
      | finish _ _ i conn _ hstorage _ _ => exact absurd hstorage (hnotStorage i conn)
      | hangUp c next id conn _ _ hconn hover =>
          -- Without failures no connection breaks and none is closed.
          rcases hover with hlost | hclosed
          · cases hlost.symm.trans (hcalm.wires.kept id conn hconn)
          · exact absurd hclosed (hcalm.wires.notClosed id conn hconn)
      | hear c next id conn reply hmeta hcall hconn hreply =>
          cases hcall₀.symm.trans hcall
          have hnew : s₁.chain.conns id = none := by
            rcases hlink with hidle | ⟨id', hmeta', hnew⟩
            · cases hidle.symm.trans hmeta
            · cases hmeta.symm.trans hmeta'
              exact hnew
          rcases hcoherent.dialed p proc id hp hmeta with
            ⟨c', next', v, line, conn', hcall', htarget', hconn', hnode, hcommand, _, _⟩
          cases hcall₀.symm.trans hcall'
          cases htarget₀.symm.trans htarget'
          cases hconn.symm.trans hconn'
          have hfits : (getLine filename).length < 2 ^ 32 := by
            have hjobfit := (hfit p proc hp).2
            rw [hjob] at hjobfit
            exact hjobfit.1
          rw [firstFrame_of_lt hfits] at hcommand
          have hread : s.chain.ReadAt id (site.net.size - 1) filename reply :=
            ⟨conn, hconn, hnode, by rw [hcommand]; exact request_getLine hname, hreply⟩
          -- The answer is the record of an upload, and the download goes on with it.
          rcases (hsince.reads.readAt hnew hread).source hcoherent hrequests hfit hearlier with
            ⟨u, file, e, hsource, rfl⟩
          have hwell := wellFormed_of_fit hsource.fits
          have hframe := firstFrame_foundMessage hwell hsource.fits.1
          have hfound : readFound filename (MetadataNode.foundMessage file.record) =
              some file.record := by
            have hname : file.record.filename = filename := hsource.name
            rw [← hname]
            exact readFound_foundMessage hwell
          have hdownload := hnext _ _ hfound (isFound_of_wellFormed hwell)
          rw [hframe]
          refine .fetching u file e
            (.lookup ip port (getLine filename), MetadataNode.foundMessage file.record) []
            (hsource.mono (hcoherent.grows hstep)) ?_ ?_ (Fetches.idle rfl)
          · simp [Proc.answer, htrace]
          · rw [Proc.answer, hdownload]
            exact .start

end

end Cluster
end Dfs

import Dfs.Client.PutLine
import Dfs.Client.Requests
import Dfs.Client.Truncation
import Dfs.Metadata.Reconfiguration

/-!
# From a PUT line to a lookup

A metadata node reads a `PUT` line word by word and later writes the record out again for a lookup,
with single spaces; the client reads that message.  Whatever the line looked like, the fields come
back as they were stored.  But the numbers of a line may stand without a space between them, so the
message can be up to three bytes longer than the line was, and then it may no longer fit into one
frame: `stored_record_iff`.
-/

set_option linter.dupNamespace false

namespace Dfs
namespace Client

open Bytes TextScan Network Metadata

/-! ## What is read -/

theorem readFields_eq_some {filename s : Bytes} {record : FileMetadata}
    (h : readFields filename s = some record) :
    record.filename = filename ∧ ∃ s₁ s₂ s₃ s₄ s₅ hashesStr,
      readInt64 s = some (record.fileSize, s₁) ∧ readInt32 s₁ = some (record.chunkSize, s₂) ∧
        readInt32 s₂ = some (record.totalChunks, s₃) ∧ readWord s₃ = some (record.rootHash, s₄) ∧
        readWord s₄ = some (hashesStr, s₅) ∧ record.chunkHashes = splitItems 44 hashesStr := by
  simp only [readFields, Option.bind_eq_bind, Option.bind_eq_some_iff] at h
  rcases h with ⟨⟨_, s₁⟩, h₁, ⟨_, s₂⟩, h₂, ⟨_, s₃⟩, h₃, ⟨_, s₄⟩, h₄, ⟨hashesStr, s₅⟩, h₅, heq⟩
  obtain rfl := Option.some.inj heq
  exact ⟨rfl, s₁, s₂, s₃, s₄, s₅, hashesStr, h₁, h₂, h₃, h₄, h₅, rfl⟩

theorem parsePut_eq_some {command : Bytes} {record : FileMetadata}
    (h : MetadataNode.parsePut command = some record) :
    ∃ op s s', readWord command = some (op, s) ∧ readWord s = some (record.filename, s') ∧
      readFields record.filename s' = some record := by
  simp only [MetadataNode.parsePut, Option.bind_eq_bind, Option.bind_eq_some_iff] at h
  rcases h with ⟨⟨op, s⟩, hop, ⟨filename, s'⟩, hname, hfields⟩
  obtain rfl := (readFields_eq_some hfields).1
  exact ⟨op, s, s', hop, hname, hfields⟩

theorem range_of_readInt {lo hi v : Int} {s rest : Bytes} (h : readInt lo hi s = some (v, rest)) :
    lo ≤ v ∧ v ≤ hi := by
  simp only [readInt, Option.ite_none_left_eq_some, Option.ite_none_right_eq_some,
    Option.some.injEq, Prod.mk.injEq] at h
  exact h.2.2.1 ▸ h.2.1

/-- What a node has read is well formed, as soon as there is a hash in it. -/
theorem wellFormed_of_parsePut {command : Bytes} {record : FileMetadata}
    (h : MetadataNode.parsePut command = some record) (hhashes : record.chunkHashes ≠ []) :
    WellFormed record := by
  rcases parsePut_eq_some h with ⟨_, _, _, _, hname, hfields⟩
  rcases readFields_eq_some hfields with ⟨_, _, _, _, _, _, _, hfile, hchunk, htotal, hroot, hlist,
    heq⟩
  refine ⟨isWord_of_readWord hname, isWord_of_readWord hroot, range_of_readInt hfile,
    range_of_readInt hchunk, range_of_readInt htotal, hhashes, ?_⟩
  intro hash hhash
  rw [heq] at hhash
  exact ⟨isWord_of_mem_splitItems (isWord_of_readWord hlist) hhash, sep_not_mem_splitItems hhash⟩

/-! ## How long the answer is -/

/-- What is read behind a word takes at least one byte of whitespace more than it is long. -/
theorem length_readWord_behind {s w rest w' rest' : Bytes} (h : readWord s = some (w, rest))
    (h' : readWord rest = some (w', rest')) : w'.length + rest'.length + 1 ≤ rest.length := by
  have hne : rest ≠ [] := by
    rintro rfl
    simp [readWord, skipSpace] at h'
  have hskip := length_skipSpace_lt (endsWord_of_readWord h) hne
  have hword := length_readWord h'
  omega

/-- A line is at least four bytes longer than its name and what comes behind it. -/
theorem length_behind_name {node : MetadataNode} {command : Bytes} {record : FileMetadata}
    (hput : node.dispatch command = .put) (h : MetadataNode.parsePut command = some record) :
    ∃ s, readFields record.filename s = some record ∧ EndsWord s ∧
      record.filename.length + s.length + 4 ≤ command.length := by
  rcases parsePut_eq_some h with ⟨op, s, s', hop, hname, hfields⟩
  rcases MetadataNode.dispatch_eq_put.1 hput with ⟨t, ht⟩
  have hop' : op = ascii "PUT" := (Prod.ext_iff.1 (Option.some.inj (hop.symm.trans ht))).1
  have hword := length_readWord hop
  rw [hop', show (ascii "PUT").length = 3 by decide] at hword
  have hskip := length_skipSpace_le command
  have hbehind := length_readWord_behind hop hname
  exact ⟨s', hfields, endsWord_of_readWord hname, by omega⟩

theorem length_getLine_lt {node : MetadataNode} {command : Bytes} {record : FileMetadata}
    (hput : node.dispatch command = .put) (h : MetadataNode.parsePut command = some record)
    (hframe : command.length < 2 ^ 32) : (getLine record.filename).length < 2 ^ 32 := by
  rcases length_behind_name hput h with ⟨s, _, _, hlength⟩
  rw [getLine, List.length_append, show (ascii "GET ").length = 4 by decide]
  omega

/-- Of the ten bytes that a message has besides its fields, a line has at least seven: the words
are apart, the numbers need not be. -/
theorem length_foundMessage_le {node : MetadataNode} {command : Bytes} {record : FileMetadata}
    (hput : node.dispatch command = .put) (h : MetadataNode.parsePut command = some record) :
    (MetadataNode.foundMessage record).length ≤ command.length + 3 := by
  rcases length_behind_name hput h with ⟨s, hfields, hends, hcommand⟩
  rcases readFields_eq_some hfields with ⟨_, s₁, s₂, s₃, s₄, s₅, hashesStr, hfile, hchunk, htotal,
    hroot, hlist, heq⟩
  have hname : 0 < record.filename.length := by
    rcases parsePut_eq_some h with ⟨_, _, _, _, hname, _⟩
    exact List.length_pos_iff.2 (isWord_of_readWord hname).ne_nil
  have hfileSize : (showInt record.fileSize).length + s₁.length + 1 ≤ s.length := by
    have hne : s ≠ [] := by
      rintro rfl
      simp [readInt64, readInt, skipSpace, readSign] at hfile
    have hskip := length_skipSpace_lt hends hne
    have hint := length_showInt_readInt hfile
    omega
  have hchunkSize := (length_showInt_readInt hchunk).trans (length_skipSpace_le s₁)
  have htotalChunks := (length_showInt_readInt htotal).trans (length_skipSpace_le s₂)
  have hrootHash : record.rootHash.length + s₄.length ≤ s₃.length :=
    (length_readWord hroot).trans_le (length_skipSpace_le s₃)
  have hhashesStr := length_readWord_behind hroot hlist
  have hitems : (joinItems 44 record.chunkHashes).length ≤ hashesStr.length := by
    rw [heq]
    exact length_joinItems_splitItems 44 hashesStr
  have hfound : (ascii "FOUND ").length = 6 := by decide
  have hspace : (ascii " ").length = 1 := by decide
  simp only [MetadataNode.foundMessage, showFields, List.length_append, hfound, hspace]
  omega

/-- The bytes of the fields of a record behind its name, the commas between the hashes included. -/
def fieldBytes (record : FileMetadata) : Nat :=
  (showInt record.fileSize).length + (showInt record.chunkSize).length +
    (showInt record.totalChunks).length + record.rootHash.length +
    ((record.chunkHashes.map List.length).sum + (record.chunkHashes.length - 1))

theorem length_foundMessage (record : FileMetadata) :
    (MetadataNode.foundMessage record).length = fieldBytes record + 10 := by
  have hfound : (ascii "FOUND ").length = 6 := by decide
  have hspace : (ascii " ").length = 1 := by decide
  simp only [MetadataNode.foundMessage, showFields, fieldBytes, List.length_append, hfound, hspace,
    length_joinItems_eq]
  omega

/-! ## The lookup -/

/-- Whatever the order of the steps, `getMetadataFromNode` gets through against nodes that satisfy
`N`, and once it is through it has read `record`. -/
def Yields (N : MetadataNode × Bool → Prop) (nodeAddr filename : Bytes) (record : FileMetadata) :
    Prop :=
  ∃ (call : Call) (next : Bytes → Program Call Bytes FileMetadata),
    getMetadataFromNode nodeAddr filename = .call call next ∧
      Exchange.NeverStuck metadataService N call.conv ∧
      (∃ tr e answer, Run (Exchange.step metadataService) (fun _ l => ∀ n, l = .handle n → N n)
        (Exchange.opened metadataService call.conv) tr e ∧ e.conv = .done answer) ∧
      ∀ tr e answer, Run (Exchange.step metadataService) (fun _ l => ∀ n, l = .handle n → N n)
        (Exchange.opened metadataService call.conv) tr e → e.conv = .done answer →
        next answer = .done record

/-- The node answers lookups of the record with it. -/
def Serves (record : FileMetadata) (n : MetadataNode × Bool) : Prop :=
  n.1.servesReads = true ∧ n.1.metadataStore record.filename = some record

/-- Where a lookup that is answered with a message can be. -/
inductive LookupPos (line message : Bytes) : Exchange MetadataHandler → Prop where
  | opened : LookupPos line message (Exchange.opened metadataService (requestConv line))
  | sent : LookupPos line message
      { conv := .recv .done, handler := .reading, toServer := sendData line, toClient := [] }
  | read : LookupPos line message
      { conv := .recv .done, handler := .reply message, toServer := [], toClient := [] }
  | replied : LookupPos line message
      { conv := .recv .done, handler := .reading, toServer := [], toClient := sendData message }
  | done (e : Exchange MetadataHandler) : e.conv = .done (firstFrame message) →
      LookupPos line message e

section Lookup

variable {record : FileMetadata} {N : MetadataNode × Bool → Prop}

theorem dispatch_getLine {filename : Bytes} (hname : IsWord filename) (node : MetadataNode) :
    node.dispatch (getLine filename) = .get filename := by
  have hget : IsWord (ascii "GET") := by decide +kernel
  refine MetadataNode.dispatch_eq_get.2 ⟨32 :: filename, [], ?_, ?_⟩
  · exact readWord_append_space hget
  · rw [readWord_space, readWord_self hname]

theorem recvData_getLine {filename : Bytes} (hshort : (getLine filename).length < 2 ^ 32) :
    recvData (sendData (getLine filename)) = (getLine filename, []) := by
  have hrecv := recvData_message (getLine filename) []
  rwa [List.append_nil, List.append_nil, firstFrame_of_lt hshort, laterBytes_of_lt hshort] at hrecv

/-- The handler of the lookup reads the request. -/
theorem onFrame_getLine {n : MetadataNode × Bool} (hname : IsWord record.filename)
    (hn : Serves record n) :
    metadataService.onFrame n .reading (getLine record.filename) =
      .reply (MetadataNode.foundMessage record) := by
  simp [metadataService, dispatch_getLine hname, hn.1, hn.2, MetadataNode.lookupMessage]

theorem LookupPos.step (hname : IsWord record.filename)
    (hshort : (getLine record.filename).length < 2 ^ 32) (hN : ∀ n, N n → Serves record n)
    {e e' : Exchange MetadataHandler} {l : Exchange.Label (MetadataNode × Bool)}
    (h : LookupPos (getLine record.filename) (MetadataNode.foundMessage record) e)
    (hl : ∀ n, l = .handle n → N n) (hstep : e.step metadataService l = some e') :
    LookupPos (getLine record.filename) (MetadataNode.foundMessage record) e' := by
  cases l with
  | request =>
      cases h with
      | opened =>
          simp only [Exchange.step, Exchange.opened, requestConv, Option.some.injEq] at hstep
          exact hstep ▸ .sent
      | sent => simp [Exchange.step, frameReady, metadataService] at hstep
      | read => simp [Exchange.step, frameReady, metadataService] at hstep
      | replied =>
          simp only [Exchange.step, frameReady_message, if_true, Option.some.injEq] at hstep
          exact hstep ▸ .done _ rfl
      | done e hconv => simp [Exchange.step, hconv] at hstep
  | handle n =>
      have hserves := hN n (hl n rfl)
      cases h with
      | opened =>
          simp [Exchange.step, Exchange.opened, metadataService, frameReady, Exchange.closed,
            requestConv] at hstep
      | sent =>
          rcases Exchange.handle_cases hstep with ⟨_, _, rfl⟩ | ⟨hreads, _⟩
          · simp only [recvData_getLine hshort, onFrame_getLine hname hserves]
            exact .read
          · cases hreads
      | read =>
          rcases Exchange.handle_cases hstep with ⟨hreads, _⟩ | ⟨_, rfl⟩
          · cases hreads
          · simp only [metadataService, Option.map_some, Option.getD_some, List.nil_append]
            exact .replied
      | replied =>
          -- The handler waits for a second request, which does not come.
          simp [Exchange.step, metadataService, frameReady, Exchange.closed] at hstep
      | done e hconv =>
          refine .done _ ?_
          rcases Exchange.handle_cases hstep with ⟨_, _, rfl⟩ | ⟨_, rfl⟩ <;> exact hconv

theorem LookupPos.run (hname : IsWord record.filename)
    (hshort : (getLine record.filename).length < 2 ^ 32) (hN : ∀ n, N n → Serves record n)
    {tr : List (Exchange MetadataHandler × Exchange.Label (MetadataNode × Bool))}
    {e : Exchange MetadataHandler}
    (h : Run (Exchange.step metadataService) (fun _ l => ∀ n, l = .handle n → N n)
      (Exchange.opened metadataService (requestConv (getLine record.filename))) tr e) :
    LookupPos (getLine record.filename) (MetadataNode.foundMessage record) e :=
  h.state_invariant (.opened) fun _ _ _ _ _ hpos hl hs => hpos.step hname hshort hN hl hs

/-- The four steps of a lookup. -/
theorem lookup_run (hname : IsWord record.filename)
    (hshort : (getLine record.filename).length < 2 ^ 32) {n : MetadataNode × Bool} (hn : N n)
    (hserves : Serves record n) :
    ∃ tr e, Run (Exchange.step metadataService) (fun _ l => ∀ n, l = .handle n → N n)
      (Exchange.opened metadataService (requestConv (getLine record.filename))) tr e ∧
      e.conv = .done (firstFrame (MetadataNode.foundMessage record)) := by
  have hhandle : ∀ m, Exchange.Label.handle n = .handle m → N m := by
    rintro m hm
    cases hm
    exact hn
  have hopened := @Run.start _ _ (Exchange.step metadataService)
    (fun _ l => ∀ n, l = .handle n → N n)
    (Exchange.opened metadataService (requestConv (getLine record.filename)))
  have hsent := hopened.next .request
    { conv := .recv .done, handler := .reading, toServer := sendData (getLine record.filename),
      toClient := [] } (by simp) rfl
  have hread := hsent.next (.handle n)
    { conv := .recv .done, handler := .reply (MetadataNode.foundMessage record), toServer := [],
      toClient := [] } hhandle (by
        have hframe := onFrame_getLine hname hserves
        simp only [metadataService] at hframe
        simp [Exchange.step, metadataService, frameReady_message, recvData_getLine hshort, hframe])
  have hreplied := hread.next (.handle n)
    { conv := .recv .done, handler := .reading, toServer := [],
      toClient := sendData (MetadataNode.foundMessage record) } hhandle rfl
  have hdone := hreplied.next .request
    { conv := .done (firstFrame (MetadataNode.foundMessage record)), handler := .reading,
      toServer := [], toClient := (recvData (sendData (MetadataNode.foundMessage record))).2 }
    (by simp) (by simp [Exchange.step, frameReady_message, firstFrame])
  exact ⟨_, _, hdone, rfl⟩

/-- Cut to two bytes or less, a message is no record. -/
theorem readFound_cut {filename message : Bytes} (hlow : 2 ^ 32 ≤ message.length)
    (hhigh : message.length < 2 ^ 32 + 3) : readFound filename (firstFrame message) = none := by
  have hlength : (firstFrame message).length ≤ 2 := by
    rw [firstFrame_eq, List.length_take]
    omega
  rw [readFound, if_neg]
  omega

theorem yields_iff (hwf : WellFormed record) (hshort : (getLine record.filename).length < 2 ^ 32)
    (hlength : (MetadataNode.foundMessage record).length < 2 ^ 32 + 3)
    (hN : ∀ n, N n → Serves record n) (hsome : ∃ n, N n) {nodeAddr : Bytes}
    (haddr : Addressable nodeAddr) :
    Yields N nodeAddr record.filename record ↔
      (MetadataNode.foundMessage record).length < 2 ^ 32 := by
  rcases haddr with ⟨ip, port, haddr⟩
  have hprogram : getMetadataFromNode nodeAddr record.filename =
      .call (.lookup ip port (getLine record.filename)) fun response =>
        .done ((readFound record.filename response).getD emptyMetadata) := by
    simp [getMetadataFromNode, onNode, haddr]
  constructor
  · rintro ⟨call, next, hcall, -, ⟨tr, e, answer, hrun, hanswer⟩, hreads⟩
    rw [hprogram] at hcall
    cases hcall
    rcases hsome with ⟨n, hn⟩
    rcases lookup_run hwf.filename hshort hn (hN n hn) with ⟨tr', e', hrun', hanswer'⟩
    have hread := hreads tr' e' _ hrun' hanswer'
    dsimp only at hread
    by_contra hlong
    -- The record that is read has no name.
    rw [readFound_cut (not_lt.1 hlong) hlength] at hread
    have hempty : emptyMetadata = record := by simpa using hread
    exact hwf.filename.ne_nil (congrArg FileMetadata.filename hempty).symm
  · intro hfits
    refine ⟨_, _, hprogram, ?_, ?_, ?_⟩
    · rcases List.exists_mem_of_ne_nil _ hwf.filename.ne_nil with ⟨b, hb⟩
      have hheeded := (heeded_getLine hshort).2 ⟨b, hb, hwf.filename.solid b hb⟩
      intro tr e hrun
      exact (request_neverStuck_iff _).2 hheeded tr e
        (hrun.mono fun _ _ _ _ _ => trivial)
    · rcases hsome with ⟨n, hn⟩
      rcases lookup_run hwf.filename hshort hn (hN n hn) with ⟨tr, e, hrun, hanswer⟩
      exact ⟨tr, e, _, hrun, hanswer⟩
    · intro tr e answer hrun hanswer
      have hpos := LookupPos.run hwf.filename hshort hN hrun
      have hframe : answer = firstFrame (MetadataNode.foundMessage record) := by
        cases hpos with
        | done e hconv =>
            rw [hanswer] at hconv
            exact Conv.done.inj hconv
        | opened => cases hanswer
        | sent => cases hanswer
        | read => cases hanswer
        | replied => cases hanswer
      rw [hframe, firstFrame_of_lt hfits, readFound_foundMessage hwf, Option.getD_some]

end Lookup

/-! ## The stored record -/

/-- The commands that are stored have come in one frame. -/
theorem length_put_lt {net : Metadata.Network} {nodes : Nat → MetadataNode}
    {P : Chain → Chain.Label → Prop} {tr : List (Chain × Chain.Label)} {s : Chain}
    (h : Run (Chain.step net) P (Chain.launch nodes) tr s) :
    ∀ id c r, s.conns id = some c → request c.command = some (.put r) →
      c.command.length < 2 ^ 32 := by
  refine h.state_invariant (I := fun s => ∀ id c r, s.conns id = some c →
    request c.command = some (.put r) → c.command.length < 2 ^ 32) ?_ ?_
  · intro id c r hc
    simp [Chain.launch] at hc
  · intro tr s l s' hrun hI _ hs id c r hc hr
    rcases (Chain.step_cases hs).conn hc with ⟨_, hopens⟩ | ⟨c', hc', _, hcommand, _⟩
    · cases hopens with
      | client v command hv =>
          rcases Option.ite_none_right_eq_some.1 hs with ⟨⟨_, _, hshort⟩, _⟩
          exact hshort
      | forward id' c' w hc' _ _ => exact hI id' c' r hc' hr
      | notice v node message w _ hrecover =>
          exact absurd hr (MetadataNode.request_notice hrecover r)
    · exact hcommand ▸ hI id c' r hc' (hcommand ▸ hr)

/-- In any run of the chain, all nodes that have handled the line of a client's `PUT` have stored
the same record; and at a node that serves reads and has stored nothing else under the name since,
a lookup yields this record exactly if its fields, with the ten bytes between and before them, fit
into one frame. -/
theorem stored_record_iff {net : Metadata.Network} {nodes : Nat → MetadataNode}
    {P : Chain → Chain.Label → Prop} {tr : List (Chain × Chain.Label)} {s : Chain}
    (h : Run (Chain.step net) P (Chain.launch nodes) tr s) {o : Nat} {c : Conn}
    {record : FileMetadata} (hc : s.conns o = some c) (hclient : c.parent = none)
    (hput : request c.command = some (.put record)) (hhashes : record.chunkHashes ≠ []) :
    (∀ id d, s.conns id = some d → d.origin = o → d.phase ≠ .received →
        ⟨d.node, o, record⟩ ∈ s.log) ∧
      (∀ e ∈ s.log, e.origin = o → e.record = record) ∧
      ∀ w nodeAddr, lastWrite s.log w record.filename = some ⟨w, o, record⟩ →
        (s.nodes w).servesReads = true → Addressable nodeAddr →
        (Yields (fun n => n.1 = s.nodes w) nodeAddr record.filename record ↔
          fieldBytes record + 10 < 2 ^ 32) := by
  have hbasic := Chain.Basic.run h
  have hown := hbasic.own o c hc hclient
  -- Everything that descends from the connection carries its command.
  have hcommand : ∀ id d, s.conns id = some d → d.origin = o →
      request d.command = some (.put record) := by
    intro id d hd horigin
    rcases hbasic.root id d hd with ⟨c', hc', _, hcmd⟩
    rw [horigin] at hc'
    cases hc.symm.trans hc'
    exact hcmd ▸ hput
  refine ⟨?_, ?_, ?_⟩
  · intro id d hd horigin hphase
    exact horigin ▸ hbasic.logged id d record hd (hcommand id d hd horigin) hphase
  · intro e he horigin
    rcases hbasic.source e he with ⟨id, d, hd, _, horigin', _, hrequest⟩
    have hsame := (hcommand id d hd (horigin'.trans horigin)).symm.trans hrequest
    exact (Op.put.inj (Option.some.inj hsame)).symm
  · intro w nodeAddr hlast hserves haddr
    rcases (request_eq_put (s.nodes w)).1 hput with ⟨hdispatch, hparse⟩
    have hframe := length_put_lt h o c record hc hput
    have hlength := length_foundMessage_le hdispatch hparse
    rw [← length_foundMessage]
    refine yields_iff (N := fun n => n.1 = s.nodes w) (wellFormed_of_parsePut hparse hhashes)
      (length_getLine_lt hdispatch hparse hframe) (by omega) ?_ ⟨(s.nodes w, true), rfl⟩ haddr
    rintro ⟨node, success⟩ rfl
    refine ⟨hserves, ?_⟩
    rw [hbasic.store, storedAt, hlast]

/-- A line with whitespace, empty items and trailing fields to spare, at a chain of one node. -/
def untidyRun : List (Chain × Chain.Label) × Chain :=
  Run.replayed (Chain.step (localNet 1)) (Chain.launch (localNodes 1))
    [.connect 0 (ascii "PUT   f  +1-2 -3r  ,h,,k, x"), .serve 0, .serve 0]

def untidyRecord : FileMetadata :=
  { filename := ascii "f"
    rootHash := ascii "r"
    fileSize := 1
    chunkSize := -2
    totalChunks := -3
    chunkHashes := [ascii "h", ascii "k"] }

theorem stored_record_untidy :
    Yields (fun n => n.1 = untidyRun.2.nodes 0) (ascii "127.0.0.1:9001") (ascii "f")
      untidyRecord := by
  have hrun : Run (Chain.step (localNet 1)) (fun _ _ => True) (Chain.launch (localNodes 1))
      untidyRun.1 untidyRun.2 := Run.of_replayed (by decide +kernel) fun _ _ => trivial
  have hconn : untidyRun.2.conns 0 = some
      { node := 0
        command := ascii "PUT   f  +1-2 -3r  ,h,,k, x"
        parent := none
        origin := 0
        phase := .replied (ascii "ACK")
        lost := false } := by decide +kernel
  have hput : request (ascii "PUT   f  +1-2 -3r  ,h,,k, x") = some (.put untidyRecord) :=
    (request_eq_put (untidyRun.2.nodes 0)).2
      ⟨MetadataNode.dispatch_eq_put.2 ⟨ascii "   f  +1-2 -3r  ,h,,k, x", by decide +kernel⟩,
        by decide +kernel⟩
  exact ((stored_record_iff hrun hconn rfl hput (by decide)).2.2 0 _ (by decide +kernel)
    (by decide +kernel) ⟨ascii "127.0.0.1", 9001, by decide +kernel⟩).2 (by decide +kernel)

/-! ## A line that is too long -/

/-- A hash of `n` bytes; its length is all that is ever asked. -/
@[irreducible] def longHash (n : Nat) : Bytes :=
  List.replicate n 97

theorem length_longHash (n : Nat) : (longHash n).length = n := by
  simp [longHash]

theorem isWord_longHash {n : Nat} (hn : n ≠ 0) : IsWord (longHash n) := by
  refine ⟨by simp [longHash, hn], ?_⟩
  intro b hb
  rw [longHash] at hb
  rw [List.eq_of_mem_replicate hb]
  decide

theorem comma_not_mem_longHash (n : Nat) : (44 : UInt8) ∉ longHash n := by
  rw [longHash]
  intro hmem
  exact absurd (List.eq_of_mem_replicate hmem) (by decide)

/-- Three numbers and a root hash without a space between them. -/
def packedLine (n : Nat) : Bytes :=
  ascii "PUT f 1-2-3r " ++ longHash n

def packedRecord (n : Nat) : FileMetadata :=
  { filename := ascii "f"
    rootHash := ascii "r"
    fileSize := 1
    chunkSize := -2
    totalChunks := -3
    chunkHashes := [longHash n] }

theorem readWord_packedLine (n : Nat) : readWord (packedLine n) =
    some (ascii "PUT", 32 :: (ascii "f" ++ 32 :: (ascii "1-2-3r " ++ longHash n))) := by
  have hline : packedLine n =
      ascii "PUT" ++ 32 :: (ascii "f" ++ 32 :: (ascii "1-2-3r " ++ longHash n)) := by
    have hascii : ascii "PUT f 1-2-3r " =
        ascii "PUT" ++ 32 :: (ascii "f" ++ 32 :: ascii "1-2-3r ") := by decide
    simp [packedLine, hascii]
  have hput : IsWord (ascii "PUT") := by decide +kernel
  rw [hline, readWord_append_space hput]

theorem parsePut_packedLine {n : Nat} (hn : n ≠ 0) :
    MetadataNode.parsePut (packedLine n) = some (packedRecord n) := by
  have hname : IsWord (ascii "f") := by decide +kernel
  have hroot : IsWord (ascii "r") := by decide +kernel
  have hitems : splitItems 44 (longHash n) = [longHash n] := by
    have hsplit := @splitItems_joinItems 44 [longHash n]
      (by simpa using comma_not_mem_longHash n) (by simpa using (isWord_longHash hn).ne_nil)
      (by simp)
    simpa [joinItems] using hsplit
  have hfields : ascii "1-2-3r " ++ longHash n =
      showInt 1 ++ (showInt (-2) ++ (showInt (-3) ++ (ascii "r" ++ 32 :: longHash n))) := by
    have hascii : ascii "1-2-3r " =
        showInt 1 ++ (showInt (-2) ++ (showInt (-3) ++ (ascii "r" ++ [32]))) := by decide +kernel
    rw [hascii]
    simp
  have hminus : ∀ (i : Int) (rest : Bytes), i < 0 → ∀ b, (showInt i ++ rest).head? = some b →
      isDigit b = false := by
    intro i rest hi b hb
    cases i with
    | ofNat m => exact absurd hi (by simp)
    | negSucc m =>
        simp only [showInt, List.cons_append, List.head?_cons, Option.some.injEq] at hb
        rw [← hb]
        decide
  have hletter : ∀ rest b, (ascii "r" ++ rest : Bytes).head? = some b → isDigit b = false := by
    intro rest b hb
    have hr : ascii "r" = [114] := by decide
    rw [hr, List.singleton_append, List.head?_cons, Option.some.injEq] at hb
    rw [← hb]
    decide
  -- Each number ends where the sign of the next one or the root hash begins.
  have hfile := @readInt_showInt (-2 ^ 63) (2 ^ 63 - 1) 1 (by norm_num) (by norm_num) _
    (hminus (-2) (showInt (-3) ++ (ascii "r" ++ 32 :: longHash n)) (by norm_num))
  have hchunk := @readInt_showInt (-2 ^ 31) (2 ^ 31 - 1) (-2) (by norm_num) (by norm_num) _
    (hminus (-3) (ascii "r" ++ 32 :: longHash n) (by norm_num))
  have htotal := @readInt_showInt (-2 ^ 31) (2 ^ 31 - 1) (-3) (by norm_num) (by norm_num) _
    (hletter (32 :: longHash n))
  simp only [MetadataNode.parsePut, readWord_packedLine, readWord_space,
    readWord_append_space hname, readFields, hfields, readInt64, readInt32, readInt_space, hfile,
    hchunk, htotal, readWord_append_space hroot, readWord_self (isWord_longHash hn), hitems,
    Option.bind_eq_bind, Option.bind_some, packedRecord]

theorem length_packedLine (n : Nat) : (packedLine n).length = n + 13 := by
  have hascii : (ascii "PUT f 1-2-3r ").length = 13 := by decide
  rw [packedLine, List.length_append, hascii, length_longHash, Nat.add_comm]

theorem length_foundMessage_packed (n : Nat) :
    (MetadataNode.foundMessage (packedRecord n)).length = n + 16 := by
  have hmessage : MetadataNode.foundMessage (packedRecord n) =
      ascii "FOUND 1 -2 -3 r " ++ longHash n := by
    have hascii : ascii "FOUND 1 -2 -3 r " = ascii "FOUND " ++ (showInt 1 ++ ascii " " ++
        showInt (-2) ++ ascii " " ++ showInt (-3) ++ ascii " " ++ ascii "r" ++ ascii " ") := by
      decide +kernel
    rw [hascii]
    simp [MetadataNode.foundMessage, showFields, packedRecord, joinItems]
  have hascii : (ascii "FOUND 1 -2 -3 r ").length = 16 := by decide
  rw [hmessage, List.length_append, hascii, length_longHash, Nat.add_comm]

/-- The connection that brings the line, and the two steps that store its record. -/
theorem packed_line_lost_of {n : Nat} (hn : n ≠ 0) (hline : n + 13 < 2 ^ 32)
    (hmessage : 2 ^ 32 ≤ n + 16) :
    ∃ tr s c, Run (Chain.step (localNet 1)) (fun _ _ => True) (Chain.launch (localNodes 1)) tr s ∧
      s.conns 0 = some c ∧ c.parent = none ∧ c.command = packedLine n ∧
      request c.command = some (.put (packedRecord n)) ∧
      lastWrite s.log 0 (ascii "f") = some ⟨0, 0, packedRecord n⟩ ∧
      (s.nodes 0).servesReads = true ∧
      ¬ Yields (fun m => m.1 = s.nodes 0) (ascii "127.0.0.1:9001") (ascii "f") (packedRecord n) := by
  have hparse := parsePut_packedLine hn
  have hput : ∀ node : MetadataNode, node.dispatch (packedLine n) = .put := fun node =>
    MetadataNode.dispatch_eq_put.2 ⟨_, readWord_packedLine n⟩
  let c : Conn :=
    { node := 0
      command := packedLine n
      parent := none
      origin := 0
      phase := .received
      lost := false }
  let s := (Chain.launch (localNodes 1)).addConn c
  have hconnect : Chain.step (localNet 1) (Chain.launch (localNodes 1)) (.connect 0 (packedLine n)) =
      some s := if_pos ⟨Nat.one_pos, rfl, (length_packedLine n).symm ▸ hline⟩
  have hconn : s.conns 0 = some c := rfl
  have hrun := (Run.start.next (P := fun _ _ => True) _ _ trivial hconnect).next (.serve 0)
    (s.storeRecord 0 c (packedRecord n)) trivial
    (Chain.step_storeRecord hconn rfl rfl (hput _) hparse)
  refine ⟨_, _, { c with phase := .stored }, hrun, ?_, rfl, rfl, ?_, ?_, ?_, ?_⟩
  · simp [Chain.storeRecord]
  · exact (request_eq_put (localNodes 1 0)).2 ⟨hput _, hparse⟩
  · simp [Chain.storeRecord, s, c, Chain.launch, lastWrite, packedRecord]
  · rfl
  · have hserves : ∀ m : MetadataNode × Bool,
        m.1 = (s.storeRecord 0 c (packedRecord n)).nodes 0 → Serves (packedRecord n) m := by
      rintro ⟨node, success⟩ rfl
      exact ⟨rfl, by simp [Chain.storeRecord, c]⟩
    have haddr : Addressable (ascii "127.0.0.1:9001") :=
      ⟨ascii "127.0.0.1", 9001, by decide +kernel⟩
    have hwf := wellFormed_of_parsePut hparse (by simp [packedRecord])
    have hshort := length_getLine_lt (hput (localNodes 1 0)) hparse
      (by rw [length_packedLine]; exact hline)
    have hiff := yields_iff (N := fun m => m.1 = (s.storeRecord 0 c (packedRecord n)).nodes 0)
      hwf hshort (by rw [length_foundMessage_packed]; omega) hserves ⟨(_, true), rfl⟩ haddr
    intro hyields
    have hfits := hiff.1 hyields
    rw [length_foundMessage_packed] at hfits
    omega

theorem packed_line_lost :
    ∃ tr s c, Run (Chain.step (localNet 1)) (fun _ _ => True) (Chain.launch (localNodes 1)) tr s ∧
      s.conns 0 = some c ∧ c.parent = none ∧ c.command = packedLine 4294967282 ∧
      request c.command = some (.put (packedRecord 4294967282)) ∧
      lastWrite s.log 0 (ascii "f") = some ⟨0, 0, packedRecord 4294967282⟩ ∧
      (s.nodes 0).servesReads = true ∧
      ¬ Yields (fun m => m.1 = s.nodes 0) (ascii "127.0.0.1:9001") (ascii "f")
        (packedRecord 4294967282) :=
  packed_line_lost_of (by norm_num) (by norm_num) (by norm_num)

end Client
end Dfs

import Dfs.Client.Upload
import Dfs.Cluster.Model

/-!
# The calls of uploads and downloads

The client routines as jobs of the system: which calls a job makes, and what an upload has done
once it talks to the metadata nodes.
-/

namespace Dfs
namespace Cluster

open Bytes TextScan Network Common Client Dht Metadata Program

inductive Job where
  | upload (client : Client) (file : LocalFile)
  | download (client : Client) (filename : Bytes) (output : OutputFile)

inductive Report where
  | uploaded (report : UploadReport)
  | downloaded (report : DownloadReport)

namespace Job

def program : Job → Program Call Bytes Report
  | upload client file =>
      (client.uploadFile file).bind fun report => .done (.uploaded report)
  | download client filename output =>
      (client.downloadFile filename output).bind fun report => .done (.downloaded report)

/-- The line that a job sends to metadata nodes. -/
def line : Job → Bytes
  | upload _ file => putLine file.record
  | download _ filename _ => getLine filename

end Job

/-- The connections that the download of a file opens. -/
def DownloadCall (filename : Bytes) (c : Call) : Prop :=
  (∃ ip port, c = .lookup ip port (getLine filename)) ∨
    ∃ ip port hash, IsWord hash ∧ c = .fetch ip port hash

/-- The connections that a job opens. -/
def Job.Asks : Job → Call → Prop
  | upload _ file => UploadCall file
  | download _ filename _ => DownloadCall filename

/-! ## Downloads -/

theorem ensures_onNode {ρ : Type} {S : Call → Prop} {R : ρ → Prop} {nodeAddr : Bytes} {failure : ρ}
    {body : Bytes → Int → Program Call Bytes ρ} (hfailure : R failure)
    (h : ∀ ip port, (body ip port).Ensures S R) : (onNode nodeAddr failure body).Ensures S R := by
  unfold onNode
  cases parseNodeAddr nodeAddr with
  | noColon => exact hfailure
  | badPort => trivial
  | endpoint ip port => exact h ip port

/-- The hashes that a record is read with are words. -/
theorem isWord_of_readFields {filename s hash : Bytes} {record : FileMetadata}
    (h : readFields filename s = some record) (hhash : hash ∈ record.chunkHashes) :
    IsWord hash := by
  simp only [readFields, Option.bind_eq_bind, Option.bind_eq_some_iff] at h
  rcases h with ⟨_, _, _, _, _, _, _, _, ⟨hashesStr, _⟩, hlist, heq⟩
  rw [← Option.some.inj heq] at hhash
  exact isWord_of_mem_splitItems (isWord_of_readWord hlist) hhash

theorem isWord_of_readFound {filename response hash : Bytes}
    (h : hash ∈ ((readFound filename response).getD emptyMetadata).chunkHashes) :
    IsWord hash := by
  cases hfound : readFound filename response with
  | none => simp [hfound, emptyMetadata] at h
  | some record =>
      rw [hfound, Option.getD_some] at h
      unfold readFound at hfound
      split at hfound
      · exact isWord_of_readFields hfound h
      · cases hfound

theorem ensures_lookupMetadata {filename : Bytes} {metadataNodes : List Bytes} :
    (lookupMetadata filename metadataNodes).Ensures (DownloadCall filename) fun r =>
      ∀ record, r = some record → ∀ hash ∈ record.chunkHashes, IsWord hash := by
  refine Ensures.firstSome fun a _ => ?_
  refine Ensures.bind (R := fun record => ∀ hash ∈ record.chunkHashes, IsWord hash)
    (ensures_onNode (by simp [emptyMetadata]) fun ip port => ?_) fun record hwords => ?_
  · exact ⟨Or.inl ⟨ip, port, rfl⟩, fun _ _ hhash => isWord_of_readFound hhash⟩
  · intro found hfound
    split at hfound
    · cases hfound
      exact hwords
    · cases hfound

theorem calls_downloadChunk {dht : ConsistentHash} {filename : Bytes} {entry : Bytes × Nat}
    (h : IsWord entry.1) : (downloadChunk dht entry).Calls (DownloadCall filename) := by
  refine Calls.bind (Calls.firstSome fun a _ => ?_) fun r => by cases r <;> trivial
  refine Calls.bind (calls_onNode fun ip port _ => ?_) fun _ => trivial
  exact ⟨Or.inr ⟨ip, port, entry.1, h, rfl⟩, fun _ => trivial⟩

theorem calls_downloadFile (client : Client) (filename : Bytes) (output : OutputFile) :
    (client.downloadFile filename output).Calls (DownloadCall filename) := by
  suffices hall : (client.downloadFile filename output).Ensures (DownloadCall filename)
      fun _ => True from hall.calls
  refine Ensures.bind ensures_lookupMetadata fun r hwords => ?_
  cases r with
  | none => trivial
  | some record =>
      refine (Calls.bind (Calls.collect fun entry hentry => ?_) fun r => ?_).ensures
      · exact calls_downloadChunk (hwords record rfl _ (List.fst_mem_of_mem_zipIdx hentry))
      · cases r with
        | error index => trivial
        | ok chunks =>
            dsimp only
            split <;> trivial

theorem Job.calls (job : Job) : job.program.Calls job.Asks := by
  cases job with
  | upload client file => exact (calls_uploadFile client file).bind fun _ => trivial
  | download client filename output =>
      exact (calls_downloadFile client filename output).bind fun _ => trivial

/-! ## Uploads -/

/-- The file has chunks, and the loop over them has ended with every chunk placed. -/
def Stocked (client : Client) (file : LocalFile) (t : List (Call × Bytes)) : Prop :=
  file.chunks ≠ [] ∧ ∃ t₁ t₂ done, t = t₁ ++ t₂ ∧
    Returns (collect (uploadChunk client.dht) file.chunks) t₁ (.ok done)

theorem Stocked.append {client : Client} {file : LocalFile} {t : List (Call × Bytes)}
    (h : Stocked client file t) (u : List (Call × Bytes)) : Stocked client file (t ++ u) := by
  rcases h with ⟨hne, t₁, t₂, done, rfl, hdone⟩
  exact ⟨hne, t₁, t₂ ++ u, done, by rw [List.append_assoc], hdone⟩

theorem Stocked.acked {client : Client} {file : LocalFile} {t : List (Call × Bytes)}
    (h : Stocked client file t) {chunk : Chunk} (hchunk : chunk ∈ file.chunks) :
    ∃ a ∈ client.dht.getNodesForKey chunk.hash 2, Acked t chunk a := by
  rcases h with ⟨_, t₁, t₂, done, rfl, hdone⟩
  rcases (returns_uploadChunks hdone hchunk).2 with ⟨a, ha, hacked⟩
  exact ⟨a, ha, hacked.append_left⟩

theorem calls_uploadChunks {dht : ConsistentHash} (chunks : List Chunk) :
    (collect (uploadChunk dht) chunks).Calls Call.IsStore := by
  refine Calls.collect fun chunk _ => Calls.bind ?_ fun _ => trivial
  generalize dht.getNodesForKey chunk.hash replicationFactor = nodes
  generalize 0 = count
  induction nodes generalizing count with
  | nil => trivial
  | cons a nodes ih =>
      refine Calls.bind (calls_onNode fun ip port _ => ?_) fun _ => ih _
      exact ⟨trivial, fun _ => trivial⟩

/-- What an upload does once its chunks are placed. -/
def afterChunks (client : Client) (file : LocalFile) :
    Except Int (List Unit) → Program Call Bytes Report
  | .error index => .done (.uploaded (.chunkFailed index))
  | .ok _ =>
      (putMetadata (putLine file.record) client.metadataNodes).bind fun r =>
        .done (.uploaded (if r.isSome then .complete else .metadataFailed))

theorem program_upload {client : Client} {file : LocalFile} (hne : file.chunks ≠ []) :
    (Job.upload client file).program =
      (collect (uploadChunk client.dht) file.chunks).bind (afterChunks client file) := by
  rw [Job.program, Client.uploadFile, if_neg hne, bind_assoc]
  congr 1
  funext r
  cases r with
  | error index => rfl
  | ok done =>
      simp only [afterChunks, bind_assoc]
      congr 1
      funext r
      cases r <;> rfl

/-- An upload is storing chunks, or has given up on one, or it has placed them all. -/
theorem follows_uploadFile {client : Client} {file : LocalFile} {t : List (Call × Bytes)}
    {q : Program Call Bytes UploadReport} (h : Follows (client.uploadFile file) t q) :
    ((∀ e ∈ t, e.1.IsStore) ∧ ∀ c next, q = .call c next → c.IsStore) ∨
      Stocked client file t ∧ ∀ i, q ≠ .done (.chunkFailed i) := by
  have hcalls := @calls_uploadChunks client.dht file.chunks
  -- Past the chunks, no report is one of a failed chunk.
  have hlater : ∀ {k : Option Unit → Program Call Bytes UploadReport} {u q'},
      (∀ r, k r = .done .complete ∨ k r = .done .metadataFailed) →
      Follows ((putMetadata (putLine file.record) client.metadataNodes).bind k) u q' →
      ∀ i, q' ≠ .done (UploadReport.chunkFailed i) := by
    rintro k u q' hk hu i rfl
    have hreport : ((putMetadata (putLine file.record) client.metadataNodes).bind k).Ensures
        (UploadCall file) fun r => ∀ i, r ≠ UploadReport.chunkFailed i := by
      refine (@calls_putMetadata file client.metadataNodes).ensures.bind fun r _ => ?_
      rcases hk r with heq | heq
      · rw [heq]
        exact fun i => by simp
      · rw [heq]
        exact fun i => by simp
    exact hu.ensures hreport i rfl
  unfold Client.uploadFile at h
  split at h
  · rcases follows_done.1 h with ⟨rfl, rfl⟩
    exact Or.inl ⟨by simp, by simp⟩
  · rename_i hne
    rcases follows_bind h with ⟨p', hp', rfl⟩ | ⟨r, t₁, t₂, rfl, hr, hf⟩
    · rcases hp'.calls hcalls with ⟨hrest, htrace⟩
      cases p' with
      | done r =>
          cases r with
          | error i => exact Or.inl ⟨htrace, by simp [Program.bind]⟩
          | ok done => exact Or.inr ⟨⟨hne, t, [], done, by simp, hp'⟩, hlater (fun r => by cases r <;> simp) .start⟩
      | throw => exact Or.inl ⟨htrace, by simp [Program.bind]⟩
      | call c next =>
          refine Or.inl ⟨htrace, ?_⟩
          intro c' next' heq
          cases heq
          exact hrest.1
    · cases r with
      | error i =>
          rcases follows_done.1 hf with ⟨rfl, rfl⟩
          exact Or.inl ⟨by simpa using (Follows.calls hr hcalls).2, by simp⟩
      | ok done => exact Or.inr ⟨⟨hne, t₁, t₂, done, rfl, hr⟩, hlater (fun r => by cases r <;> simp) hf⟩

/-- An upload turns to the metadata nodes only when every chunk is placed, and then it does not
report a failed chunk any more. -/
theorem stocked_of_put {client : Client} {file : LocalFile} {t : List (Call × Bytes)}
    {q : Program Call Bytes Report} (h : Follows (Job.upload client file).program t q)
    (hput : (∃ e ∈ t, ¬ e.1.IsStore) ∨ ∃ c next, q = .call c next ∧ ¬ c.IsStore) :
    Stocked client file t ∧ ∀ i, q ≠ .done (.uploaded (.chunkFailed i)) := by
  have hinner : ∃ q', Follows (client.uploadFile file) t q' ∧
      q = q'.bind fun report => .done (.uploaded report) := by
    rcases follows_bind h with ⟨q', hq', rfl⟩ | ⟨r, t₁, t₂, rfl, hr, hf⟩
    · exact ⟨q', hq', rfl⟩
    · rcases follows_done.1 hf with ⟨rfl, rfl⟩
      exact ⟨.done r, by simpa [Returns] using hr, rfl⟩
  rcases hinner with ⟨q', hq', rfl⟩
  rcases follows_uploadFile hq' with ⟨htrace, hcall⟩ | ⟨hstocked, hreport⟩
  · exfalso
    rcases hput with ⟨e, he, hne⟩ | ⟨c, next, heq, hne⟩
    · exact hne (htrace e he)
    · cases q' with
      | done r => cases heq
      | throw => cases heq
      | call c' next' =>
          cases heq
          exact hne (hcall c next' rfl)
  · refine ⟨hstocked, ?_⟩
    intro i heq
    cases q' with
    | done r =>
        cases heq
        exact hreport i rfl
    | throw => cases heq
    | call c next => cases heq

end Cluster
end Dfs

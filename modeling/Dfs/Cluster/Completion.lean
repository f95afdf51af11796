import Dfs.Cluster.Progress

/-!
# What uploads report

An upload on a chain without failures has its record acknowledged as soon as every chunk has found a
node.  So it fails only if, for some chunk, all the nodes that the ring assigns to it are gone in
the end; one of them is enough.
-/

namespace Dfs
namespace Cluster

open Bytes TextScan Network Common Client Storage Dht Metadata Program

/-! ## Stores that are not lost -/

/-- A conversation that is over has ended with an acknowledgement. -/
def EndsAcked (conn : Storage.Conn) : Prop :=
  ∀ a, conn.conv = .done a → a = ascii "ACK"

theorem EndsAcked.advance {hash data : Bytes} {acked : Bool} {conn conn' : Storage.Conn}
    {node node' : StorageNode} (hends : EndsAcked conn) (hpos : StorePos hash data acked conn)
    (hadvance : conn.advance node = some (node', conn')) : EndsAcked conn' := by
  cases hpos with
  | command =>
      cases hrun : node.running <;>
        simp [Conn.advance, Conn.opened, StorageNode.work, StorageNode.receive, storeConv, hrun]
          at hadvance
      rcases hadvance with ⟨_, rfl⟩
      simp [EndsAcked]
  | ready =>
      simp [Conn.advance, StorageNode.work, afterReady] at hadvance
      rcases hadvance with ⟨_, rfl⟩
      simp [EndsAcked]
  | data =>
      cases hrun : node.running <;>
        simp [Conn.advance, StorageNode.work, StorageNode.receive, hrun] at hadvance
      rcases hadvance with ⟨_, rfl⟩
      simp [EndsAcked]
  | storing =>
      cases hrun : node.running <;> simp [Conn.advance, StorageNode.work, hrun] at hadvance
      rcases hadvance with ⟨_, rfl⟩
      simp [EndsAcked]
  | acked =>
      simp [Conn.advance, StorageNode.work] at hadvance
      rcases hadvance with ⟨_, rfl⟩
      simp [EndsAcked]
  | complete => simp [Conn.advance, StorageNode.work] at hadvance
  -- A conversation that was cut off has ended without an `ACK`.
  | lost outbound phase _ => cases hends [] rfl

/-- A node that is up acknowledges every store. -/
structure Placing (site : Site) (s : State Job Report) : Prop where
  answered : ∀ p proc ip port hash data a i, s.procs p = some proc →
    (.store ip port hash data, a) ∈ proc.trace → site.storageAt ip port = some i →
    (s.storage i).running = true → a = ascii "ACK"
  arriving : ∀ p proc ip port hash data next i conn, s.procs p = some proc →
    proc.program = .call (.store ip port hash data) next → proc.link = .storage i conn →
    (s.storage i).running = true → EndsAcked conn

section

variable {site : Site} {client : Client} {nodes : Nat → MetadataNode} {s s' : State Job Report}
  {l : Label Job} {tr : List (State Job Report × Label Job)} {p : Nat} {proc : Proc Job Report}

theorem Placing.step (hcoherent : Coherent site Job.program nodes s) (hstocks : Stocks site s)
    (h : Placing site s) (honly : OnlyCrashes site s l) (hstep : Step site Job.program s l s') :
    Placing site s' where
  answered := by
    have hgrows := hcoherent.grows hstep
    intro p proc ip port hash data a i hp hmem hi hrun
    have hbefore := (hgrows.storage i).running hrun
    rcases hstep.process hp with ⟨_, _, _, rfl⟩ | ⟨before, hprev, hacts⟩
    · cases hmem
    · have hold : (.store ip port hash data, a) ∈ before.trace → a = ascii "ACK" :=
        fun hmem => h.answered p before ip port hash data a i hprev hmem hi hbefore
      have hmetadata : ∀ c next id b, before.program = .call c next →
          before.link = .metadata id →
          (.store ip port hash data, a) ∈ (before.answer c next b).trace → a = ascii "ACK" := by
        intro c next id b hcall hlink hmem
        rcases List.mem_append.1 hmem with hmem | hmem
        · exact hold hmem
        · rcases hcoherent.dialed p before id hprev hlink with
            ⟨c', next', v, line, _, hcall', htarget, _⟩
          cases hcall.symm.trans hcall'
          cases List.mem_singleton.1 hmem
          cases htarget
      cases hacts with
      | same => exact hold hmem
      | dialStorage => exact hold hmem
      | dialMetadata => exact hold hmem
      | transfer => exact hold hmem
      | lose => exact hold hmem
      | refuse c next _ hcall =>
          rcases List.mem_append.1 hmem with hmem | hmem
          · exact hold hmem
          · cases List.mem_singleton.1 hmem
            -- Only a node that has crashed refuses.
            cases hbefore.symm.trans ((honly before _ next hprev hcall).2 i hi)
      | finish c next j conn b hlink hcall hdone =>
          rcases List.mem_append.1 hmem with hmem | hmem
          · exact hold hmem
          · rcases hstocks.linked p before j conn hprev hlink with ⟨c', _, hcall', htarget, _⟩
            cases hcall.symm.trans hcall'
            cases List.mem_singleton.1 hmem
            cases hi.symm.trans htarget
            exact h.arriving p before ip port hash data next i conn hprev hcall hlink hbefore a
              hdone
      | hangUp c next id conn hlink hcall _ _ => exact hmetadata c next id _ hcall hlink hmem
      | hear c next id conn reply hlink hcall _ _ => exact hmetadata c next id _ hcall hlink hmem
  arriving := by
    have hgrows := hcoherent.grows hstep
    intro p proc ip port hash data next i conn hp hcall hlink hrun
    have hbefore := (hgrows.storage i).running hrun
    rcases hstep.process hp with ⟨_, _, _, rfl⟩ | ⟨before, hprev, hacts⟩
    · cases hlink
    · cases hacts with
      | same => exact h.arriving p proc ip port hash data next i conn hprev hcall hlink hbefore
      | dialStorage c next' j _ hcall' _ _ =>
          cases hlink
          cases hcall'.symm.trans hcall
          simp [EndsAcked, Conn.opened, Call.conv, storeConv]
      | transfer j conn₀ conn' hlink' hadvance =>
          cases hlink
          have hends := h.arriving p before ip port hash data next i conn₀ hprev hcall hlink'
            hbefore
          rcases hstocks.linked p before i conn₀ hprev hlink' with ⟨c, _, hcall', _, hcarries⟩
          cases hcall'.symm.trans hcall
          cases hcarries with
          | store _ _ _ _ acked _ _ hpos _ => exact hends.advance hpos hadvance
      | lose j conn₀ hlink' =>
          -- The node of a connection that breaks has crashed.
          cases hlink
          cases hbefore.symm.trans (honly before i conn₀ hprev hlink')
      | _ => cases hlink

theorem Placing.run
    (h : Run (Cluster.step site Job.program) (Permitted site client) (State.launch nodes) tr s) :
    Placing site s := by
  refine h.state_invariant (I := Placing site)
    ⟨by simp [State.launch], by simp [State.launch]⟩ ?_
  intro tr s l s' hrun hplacing hl hs
  exact hplacing.step (Coherent.run hrun) (Stocks.run hrun) hl.2 (step_cases hs)

end

/-! ## From the answers to the report -/

/-- The answers that an upload can rely on. -/
def Answered (site : Site) (s : State Job Report) : Call → Bytes → Prop
  | .store ip port _ _, a =>
      ∀ i, site.storageAt ip port = some i → (s.storage i).running = true → a = ascii "ACK"
  | .put _ _ _, a => a = ascii "ACK"
  | _, _ => True

/-- The storage node behind the address is up. -/
def Hosted (site : Site) (s : State Job Report) (nodeAddr : Bytes) : Prop :=
  ∃ ip port i, parseNodeAddr nodeAddr = .endpoint ip port ∧ site.storageAt ip port = some i ∧
    (s.storage i).running = true

section

variable {site : Site} {client : Client} {nodes : Nat → MetadataNode} {s : State Job Report}
  {tr : List (State Job Report × Label Job)} {p : Nat} {proc : Proc Job Report}

theorem yields_uploadChunkToNode {chunk : Chunk} {nodeAddr : Bytes}
    (haddr : parseNodeAddr nodeAddr ≠ .badPort) :
    (uploadChunkToNode chunk nodeAddr).Yields (Answered site s) fun stored =>
      Hosted site s nodeAddr → stored = true := by
  unfold uploadChunkToNode onNode
  cases hparse : parseNodeAddr nodeAddr with
  | noColon =>
      rintro ⟨ip, port, i, hparse', _⟩
      cases hparse.symm.trans hparse'
  | badPort => exact absurd hparse haddr
  | endpoint ip port =>
      rintro answer hanswer ⟨ip', port', i, hparse', hi, hrun⟩
      cases hparse.symm.trans hparse'
      simpa using hanswer i hi hrun

/-- The loop over the replicas counts those that are up. -/
theorem yields_replicate {chunk : Chunk} {addrs : List Bytes} {n : Nat}
    (haddr : ∀ a ∈ addrs, parseNodeAddr a ≠ .badPort) :
    (replicate chunk addrs n).Yields (Answered site s) fun count =>
      n ≤ count ∧ ((∃ a ∈ addrs, Hosted site s a) → n < count) := by
  induction addrs generalizing n with
  | nil => exact ⟨le_refl n, by simp⟩
  | cons a addrs ih =>
      refine (yields_uploadChunkToNode (haddr a (by simp))).bind fun stored hstored => ?_
      refine (ih fun b hb => haddr b (by simp [hb])).imp ?_
      rintro count ⟨hle, hlt⟩
      cases stored with
      -- One success is enough: the count never goes down.
      | true => exact ⟨Nat.le_of_succ_le hle, fun _ => hle⟩
      | false =>
          refine ⟨hle, ?_⟩
          rintro ⟨b, hb, hhosted⟩
          rcases List.mem_cons.1 hb with rfl | hb
          · cases hstored hhosted
          · exact hlt ⟨b, hb, hhosted⟩

theorem yields_uploadChunk {dht : ConsistentHash} {chunk : Chunk}
    (haddr : ∀ a ∈ dht.getNodesForKey chunk.hash 2, parseNodeAddr a ≠ .badPort)
    (hhosted : ∃ a ∈ dht.getNodesForKey chunk.hash 2, Hosted site s a) :
    (uploadChunk dht chunk).Yields (Answered site s) fun r => ∃ b, r = .ok b ∧ True := by
  refine (yields_replicate haddr).bind ?_
  rintro count ⟨_, hlt⟩
  exact ⟨(), if_neg (hlt hhosted).ne', trivial⟩

theorem yields_putMetadata (hpos : 0 < site.net.size)
    (hlists : Lists site client.metadataNodes) (line : Bytes) :
    (putMetadata line client.metadataNodes).Yields (Answered site s) fun r =>
      ∃ b, r = some b ∧ True := by
  have hnode : ∀ a ∈ client.metadataNodes, ((putMetadataToNode a line).bind fun stored =>
      .done (if stored then some () else none)).Yields (Answered site s) fun r =>
        ∃ b, r = some b ∧ True := by
    intro a ha
    rcases List.getElem?_of_mem ha with ⟨v, hv⟩
    rcases hlists.node v a hv with ⟨ip, port, hparse, _⟩
    simp only [putMetadataToNode, onNode, hparse, Program.bind]
    intro answer hanswer
    exact ⟨(), by simp [show answer = ascii "ACK" from hanswer], trivial⟩
  refine Yields.firstSome (fun a ha => (hnode a ha).imp fun _ _ _ _ => trivial) ?_
  have hne : client.metadataNodes ≠ [] := by
    intro hnil
    have hlength := hlists.length_eq
    rw [hnil] at hlength
    exact absurd hlength hpos.ne
  rcases List.exists_mem_of_ne_nil _ hne with ⟨a, ha⟩
  exact ⟨a, ha, hnode a ha⟩

end

end Cluster
end Dfs

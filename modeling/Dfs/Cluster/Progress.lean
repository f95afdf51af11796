import Dfs.Cluster.Downloads
import Dfs.Metadata.Progress
import Mathlib.Algebra.BigOperators.Group.Finset.Basic
import Mathlib.Logic.Hydra

/-!
# Progress of the system

On a chain without failures, and with storage nodes that may crash, uploads and downloads come to an
end.  What is left to do is a multiset of heads, one for each process and one for each connection
that a client is done with (`heads`), and the work of the handlers of the chain.  A step cuts one
head and lets finitely many lower ones grow, or leaves the heads and lowers the work.  When no step
is left, every process has returned, except for the downloads of blank names, which no metadata node
answers.
-/

namespace Dfs
namespace Cluster

open Bytes TextScan Network Common Client Storage Dht Metadata Program

/-! ## The steps of the system itself -/

/-- Steps that are not from outside: no new job, no crash, and a connection breaks only where the
client still waits on it. -/
def Working (site : Site) (s : State Job Report) : Label Job → Prop
  | .start _ => False
  | .crash _ => False
  | .lose p => OnlyCrashes site s (.lose p) ∧ ∀ proc i conn, s.procs p = some proc →
      proc.link = .storage i conn → ∀ a, conn.conv ≠ .done a
  | l => OnlyCrashes site s l

/-- No step of the system itself is left. -/
def AtRest (site : Site) (s : State Job Report) : Prop :=
  ∀ l, Working site s l → Cluster.step site Job.program s l = none

theorem Working.permitted {site : Site} {client : Client} {s : State Job Report} {l : Label Job}
    (h : Working site s l) : Permitted site client s l := by
  cases l with
  | start job => exact h.elim
  | crash i => exact h.elim
  | lose p => exact ⟨trivial, h.1⟩
  | _ => exact ⟨trivial, h⟩

/-! ## Conversations end -/

/-- What a conversation can become in a step, or when its connection breaks. -/
inductive ConvAfter : Conv → Conv → Prop where
  | send (message : Bytes) (next : Conv) : ConvAfter next (.send message next)
  | recv (next : Bytes → Conv) (frame : Bytes) : ConvAfter (next frame) (.recv next)
  | lose (conv : Conv) (answer : Bytes) : (∀ a, conv ≠ .done a) → ConvAfter (.done answer) conv

theorem convAfter_wf : WellFounded ConvAfter := by
  have hdone : ∀ answer, Acc ConvAfter (.done answer) := by
    intro answer
    refine ⟨_, fun conv h => ?_⟩
    cases h with
    | lose _ _ hne => exact absurd rfl (hne answer)
  refine ⟨fun conv => ?_⟩
  induction conv with
  | send message next ih =>
      refine ⟨_, fun conv' h => ?_⟩
      cases h with
      | send => exact ih
      | lose _ answer _ => exact hdone answer
  | recv next ih =>
      refine ⟨_, fun conv' h => ?_⟩
      cases h with
      | recv _ frame => exact ih frame
      | lose _ answer _ => exact hdone answer
  | done answer => exact hdone answer

/-- The handler of a connection is about to take the mutex. -/
def pending (conn : Storage.Conn) : Nat :=
  match conn.phase with
  | .storing _ _ => 1
  | .lookup _ => 1
  | _ => 0

/-- The order in which a connection to a storage node goes down: by its conversation, and by what
its handler has to do. -/
def ConnBelow (conn' conn : Storage.Conn) : Prop :=
  Prod.Lex ConvAfter (· < ·) (conn'.conv, pending conn') (conn.conv, pending conn)

theorem connBelow_wf : WellFounded ConnBelow :=
  InvImage.wf (fun conn : Storage.Conn => (conn.conv, pending conn))
    (convAfter_wf.prod_lex Nat.lt_wfRel.wf)

theorem connBelow_advance {node node' : StorageNode} {conn conn' : Storage.Conn}
    (h : conn.advance node = some (node', conn')) : ConnBelow conn' conn := by
  have hafter : ConvAfter conn'.conv conn.conv → ConnBelow conn' conn := Prod.Lex.left _ _
  unfold Conn.advance at h
  split at h
  · rename_i node₁ phase replies hwork
    cases h
    refine Prod.Lex.right _ ?_
    -- The handler had something to do, and goes back to reading.
    split at hwork
    · unfold StorageNode.work at hwork
      split at hwork
      · rename_i hash data hphase
        cases hwork
        simp [pending, hphase]
      · rename_i hash hphase
        cases hwork
        simp [pending, hphase]
      · cases hwork
    · cases hwork
  · split at h
    · cases h
    · rename_i next hconv
      split at h
      · cases h
      · cases h
        exact hafter (hconv ▸ .recv next _)
    · rename_i message next hconv
      split at h
      · cases h
      · cases h
        exact hafter (hconv ▸ .send message next)

theorem connBelow_lose {conn : Storage.Conn} (h : ∀ a, conn.conv ≠ .done a) :
    ConnBelow conn.lose conn :=
  Prod.Lex.left _ _ (.lose conn.conv _ h)

/-! ## Heads -/

/-- What is left of a process, or of a connection that a client is done with. -/
inductive Head where
  | proc (program : Program Call Bytes Report) (link : Link)
  | orphan (conn : Storage.Conn)

def Proc.head (proc : Proc Job Report) : Head :=
  .proc proc.program proc.link

/-- A connection is lower than none: the call that it is for is still to be answered. -/
inductive LinkBelow : Link → Link → Prop where
  | dial (link : Link) : link ≠ .idle → LinkBelow link .idle
  | conn (i : Nat) (conn' conn : Storage.Conn) :
      ConnBelow conn' conn → LinkBelow (.storage i conn') (.storage i conn)

inductive HeadBelow : Head → Head → Prop where
  | answer (program' program : Program Call Bytes Report) (link' link : Link) :
      After program' program → HeadBelow (.proc program' link') (.proc program link)
  | link (program : Program Call Bytes Report) (link' link : Link) :
      LinkBelow link' link → HeadBelow (.proc program link') (.proc program link)
  | leave (conn : Storage.Conn) (program : Program Call Bytes Report) (link : Link) :
      HeadBelow (.orphan conn) (.proc program link)
  | late (conn' conn : Storage.Conn) :
      ConnBelow conn' conn → HeadBelow (.orphan conn') (.orphan conn)

theorem linkBelow_wf : WellFounded LinkBelow := by
  have hstorage : ∀ i conn, Acc LinkBelow (.storage i conn) := by
    intro i conn
    induction conn using connBelow_wf.induction with
    | _ conn ih =>
        refine ⟨_, fun link h => ?_⟩
        cases h with
        | conn _ conn' _ hbelow => exact ih conn' hbelow
  have hmetadata : ∀ id, Acc LinkBelow (.metadata id) :=
    fun id => ⟨_, fun link h => by cases h⟩
  refine ⟨fun link => ?_⟩
  cases link with
  | idle =>
      refine ⟨_, fun link h => ?_⟩
      cases h with
      | dial _ hne =>
          cases link with
          | idle => exact absurd rfl hne
          | storage i conn => exact hstorage i conn
          | metadata id => exact hmetadata id
  | storage i conn => exact hstorage i conn
  | metadata id => exact hmetadata id

theorem headBelow_wf : WellFounded HeadBelow := by
  have horphan : ∀ conn, Acc HeadBelow (.orphan conn) := by
    intro conn
    induction conn using connBelow_wf.induction with
    | _ conn ih =>
        refine ⟨_, fun head h => ?_⟩
        cases h with
        | late conn' _ hbelow => exact ih conn' hbelow
  -- By induction on the program, and for one program on its connection.
  have hproc : ∀ program link, Acc HeadBelow (.proc program link) := by
    intro program
    induction program using after_wf.induction with
    | _ program ihprogram =>
        intro link
        induction link using linkBelow_wf.induction with
        | _ link ihlink =>
            refine ⟨_, fun head h => ?_⟩
            cases h with
            | answer program' _ link' _ hafter => exact ihprogram program' hafter link'
            | link _ link' _ hbelow => exact ihlink link' hbelow
            | leave conn _ _ => exact horphan conn
  refine ⟨fun head => ?_⟩
  cases head with
  | proc program link => exact hproc program link
  | orphan conn => exact horphan conn

def headAt (s : State Job Report) (p : Nat) : Multiset Head :=
  ((s.procs p).map fun proc => ({proc.head} : Multiset Head)).getD 0

def orphanHeads (orphans : List (Nat × Storage.Conn)) : Multiset Head :=
  ↑(orphans.map fun e => Head.orphan e.2)

def heads (s : State Job Report) : Multiset Head :=
  ∑ p ∈ Finset.range s.started, headAt s p + orphanHeads s.orphans

section

variable {s s' : State Job Report} {p : Nat} {proc proc' : Proc Job Report}

/-- A process that changes changes its head. -/
theorem sum_headAt (hp : s.procs p = some proc) (hstarted : p < s.started)
    (hprocs : s'.procs = Function.update s.procs p (some proc')) :
    ∑ q ∈ Finset.range s.started, headAt s' q + {proc.head} =
      ∑ q ∈ Finset.range s.started, headAt s q + {proc'.head} := by
  have hmem : p ∈ Finset.range s.started := Finset.mem_range.2 hstarted
  have hbefore : headAt s p = {proc.head} := by simp [headAt, hp]
  have hafter : headAt s' p = {proc'.head} := by simp [headAt, hprocs]
  have hrest : ∑ q ∈ (Finset.range s.started).erase p, headAt s' q =
      ∑ q ∈ (Finset.range s.started).erase p, headAt s q := by
    refine Finset.sum_congr rfl fun q hq => ?_
    simp [headAt, hprocs, Finset.ne_of_mem_erase hq]
  rw [← Finset.add_sum_erase _ _ hmem, ← Finset.add_sum_erase _ _ hmem, hrest, hbefore, hafter]
  ac_rfl

theorem orphanHeads_cons (e : Nat × Storage.Conn) (orphans : List (Nat × Storage.Conn)) :
    orphanHeads (e :: orphans) = {.orphan e.2} + orphanHeads orphans := rfl

theorem orphanHeads_append (orphans : List (Nat × Storage.Conn)) (i : Nat) (conn : Storage.Conn) :
    orphanHeads (orphans ++ [(i, conn)]) = orphanHeads orphans + {.orphan conn} := by
  simp [orphanHeads, ← Multiset.coe_add]

theorem orphanHeads_set {orphans : List (Nat × Storage.Conn)} {k i : Nat}
    {conn : Storage.Conn} (conn' : Storage.Conn) (hk : orphans[k]? = some (i, conn)) :
    orphanHeads (orphans.set k (i, conn')) + {.orphan conn} =
      orphanHeads orphans + {.orphan conn'} := by
  induction orphans generalizing k with
  | nil => simp at hk
  | cons e orphans ih =>
      cases k with
      | zero =>
          cases hk
          simp only [List.set_cons_zero, orphanHeads_cons]
          ac_rfl
      | succ k =>
          rw [List.set_cons_succ, orphanHeads_cons, orphanHeads_cons, add_assoc, ih hk, add_assoc]

end

/-! ## Every step lowers what is left -/

/-- What is left to do: the heads, then the work of the handlers of the chain. -/
def left (site : Site) (s : State Job Report) : Multiset Head × Nat :=
  (heads s, s.chain.work site.net)

/-- One head is cut and lower ones grow, or the chain has less work. -/
def Lowers (site : Site) (s' s : State Job Report) : Prop :=
  Prod.Lex (Relation.CutExpand HeadBelow) (· < ·) (left site s') (left site s)

theorem lowers_wf (site : Site) : WellFounded (Lowers site) :=
  InvImage.wf (left site) (headBelow_wf.cutExpand.prod_lex Nat.lt_wfRel.wf)

section

variable {site : Site} {client : Client} {nodes : Nat → MetadataNode} {s s' : State Job Report}
  {l : Label Job} {p : Nat} {proc proc' : Proc Job Report}

/-- A process goes down, and perhaps leaves a connection behind. -/
theorem lowers_proc (hp : s.procs p = some proc) (hstarted : p < s.started)
    (hprocs : s'.procs = Function.update s.procs p (some proc')) (hsame : s'.started = s.started)
    (hbelow : HeadBelow proc'.head proc.head)
    (horphans : s'.orphans = s.orphans ∨ ∃ i conn, s'.orphans = s.orphans ++ [(i, conn)]) :
    Lowers site s' s := by
  have hsum := sum_headAt hp hstarted hprocs
  refine Prod.Lex.left _ _ ?_
  rcases horphans with heq | ⟨i, conn, heq⟩
  · refine ⟨{proc'.head}, proc.head, by simpa using hbelow, ?_⟩
    simp only [heads, hsame, heq]
    rw [add_right_comm, hsum]
    ac_rfl
  · refine ⟨{proc'.head} + {.orphan conn}, proc.head, ?_, ?_⟩
    · intro head hhead
      rcases Multiset.mem_add.1 hhead with hhead | hhead
      · rw [Multiset.mem_singleton.1 hhead]
        exact hbelow
      · rw [Multiset.mem_singleton.1 hhead]
        exact .leave conn _ _
    · simp only [heads, hsame, heq, orphanHeads_append]
      -- The two new heads stand where the old one stood.
      rw [add_right_comm, hsum]
      ac_rfl

theorem Step.lowers (hwired : Wired site.net nodes)
    (hcoherent : Coherent site Job.program nodes s) (hrequests : Requests s)
    (hcalm : Chain.Calm site.net nodes s.chain) (hworking : Working site s l)
    (hstep : Step site Job.program s l s') : Lowers site s' s := by
  have hstarted : ∀ {p proc}, s.procs p = some proc → p < s.started :=
    fun hp => (hcoherent.process _ _ hp).1
  cases hstep with
  | start job => exact hworking.elim
  | dialStorage p proc c next i hp hlink hcall _ _ =>
      refine lowers_proc hp (hstarted hp) rfl rfl ?_ (Or.inl rfl)
      exact .link _ _ _ (hlink ▸ .dial _ (by simp [Proc.setLink]))
  | dialMetadata p proc c next v line chain hp hlink hcall _ _ =>
      refine lowers_proc hp (hstarted hp) rfl rfl ?_ (Or.inl rfl)
      exact .link _ _ _ (hlink ▸ .dial _ (by simp [Proc.setLink]))
  | refuse p proc c next hp hlink hcall =>
      refine lowers_proc hp (hstarted hp) rfl rfl ?_ (Or.inl rfl)
      exact .answer _ _ _ _ (hcall ▸ .answer c next _)
  | transfer p proc i conn conn' node hp hlink hadvance =>
      refine lowers_proc hp (hstarted hp) rfl rfl ?_ (Or.inl rfl)
      exact .link _ _ _ (hlink ▸ .conn i conn' conn (connBelow_advance hadvance))
  | lose p proc i conn hp hlink =>
      refine lowers_proc hp (hstarted hp) rfl rfl ?_ (Or.inl rfl)
      exact .link _ _ _ (hlink ▸ .conn i _ conn (connBelow_lose (hworking.2 proc i conn hp hlink)))
  | finish p proc c next i conn a hp hlink hcall hdone =>
      refine lowers_proc hp (hstarted hp) rfl rfl ?_ (Or.inr ⟨i, conn, rfl⟩)
      exact .answer _ _ _ _ (hcall ▸ .answer c next a)
  | hangUp p proc c next id conn hp hlink hcall hconn hover =>
      refine lowers_proc hp (hstarted hp) rfl rfl ?_ (Or.inl rfl)
      exact .answer _ _ _ _ (hcall ▸ .answer c next _)
  | hear p proc c next id conn reply chain hp hlink hcall hconn hreply htake =>
      refine lowers_proc hp (hstarted hp) rfl rfl ?_ (Or.inl rfl)
      exact .answer _ _ _ _ (hcall ▸ .answer c next _)
  | late k i conn conn' node hk hadvance =>
      refine Prod.Lex.left _ _ ⟨{.orphan conn'}, .orphan conn, ?_, ?_⟩
      · simpa using HeadBelow.late conn' conn (connBelow_advance hadvance)
      · have hset := orphanHeads_set conn' hk
        simp only [heads, State.setStorage_started]
        rw [add_assoc, hset, ← add_assoc]
        rfl
  | crash i => exact hworking.elim
  | chain lc chain hinternal hlc =>
      -- The heads are as before, and the handlers of the chain have less work.
      refine Prod.Lex.right _ ?_
      have hwork := (Chain.step_cases hlc).work hcalm.basic fun id c w hc hphase hw => by
        have hnode := hcalm.wires.nextUp_eq hwired (hcalm.wires.forwarding id c hc hphase) hw
        omega
      cases lc with
      | serve id => simpa [Chain.Label.handles, Chain.Label.brings] using hwork
      | connect v command => cases hinternal
      | take id => cases hinternal
      | _ => exact hworking.elim
  -- Requests fit one frame, so nothing is left over.
  | nextFrame id conn chain _ hleft _ => exact absurd (hrequests.leftover id) hleft

end

/-! ## What rests -/

/-- The client still waits on its connection to a metadata node. -/
def Waits (s : State Job Report) : Prop :=
  ∀ p proc id conn, s.procs p = some proc → proc.link = .metadata id →
    s.chain.conns id = some conn → conn.phase ≠ .taken

section

variable {site : Site} {client : Client} {nodes : Nat → MetadataNode} {s s' : State Job Report}
  {l : Label Job} {tr : List (State Job Report × Label Job)} {p : Nat} {proc : Proc Job Report}

theorem Waits.step (hcoherent : Coherent site Job.program nodes s) (h : Waits s)
    (hstep : Step site Job.program s l s') : Waits s' := by
  intro p proc id conn hp hlink hconn htaken
  -- The process has just opened the connection, or it was on it before.
  have hbefore : s.chain.conns id = none ∨
      ∃ before, s.procs p = some before ∧ before.link = .metadata id := by
    rcases hstep.process hp with ⟨_, _, _, rfl⟩ | ⟨before, hbefore, hacts⟩
    · cases hlink
    · cases hacts with
      | same => exact Or.inr ⟨proc, hbefore, hlink⟩
      | dialMetadata c next v line _ _ _ _ _ =>
          cases hlink
          exact Or.inl hcoherent.chain.fresh
      | _ => cases hlink
  -- No step takes the reply and leaves the process where it is.
  have htook : ∃ lc, lc ≠ .take id ∧
      (s'.chain = s.chain ∨ Chain.step site.net s.chain lc = some s'.chain) := by
    cases hstep with
    | dialMetadata q d c next v line chain _ _ _ _ hchain =>
        exact ⟨_, Chain.Label.noConfusion, Or.inr hchain⟩
    | hear q d c next id' conn' reply chain hq hqlink hcall hconn' hreply htake =>
        refine ⟨.take id', ?_, Or.inr htake⟩
        -- The process that takes the reply goes on.
        intro heq
        cases heq
        rcases hcoherent.dialed q d id hq hqlink with ⟨_, _, _, _, _, _, _, _, _, _, _, howner⟩
        rcases hbefore with hnone | ⟨before, hbefore, hlink'⟩
        · cases hnone.symm.trans hconn'
        · rcases hcoherent.dialed p before id hbefore hlink' with
            ⟨_, _, _, _, _, _, _, _, _, _, _, howner'⟩
          cases howner.symm.trans howner'
          have hproc : d.answer c next (firstFrame reply) = proc := by simpa using hp
          cases hproc
          cases hlink
    | chain lc chain hinternal hlc =>
        refine ⟨lc, ?_, Or.inr hlc⟩
        rintro rfl
        cases hinternal
    | nextFrame id' conn' chain _ _ hchain => exact ⟨_, Chain.Label.noConfusion, Or.inr hchain⟩
    | _ => exact ⟨.serve 0, Chain.Label.noConfusion, Or.inl rfl⟩
  have hold : ∃ d, s.chain.conns id = some d ∧ d.phase = .taken := by
    rcases htook with ⟨lc, hne, heq | hlc⟩
    · exact ⟨conn, heq ▸ hconn, htaken⟩
    · rcases (Chain.step_cases hlc).taken hconn htaken with ⟨hlc', _⟩ | ⟨d, hd, hphase, _⟩
      · exact absurd hlc' hne
      · exact ⟨d, hd, hphase⟩
  rcases hold with ⟨d, hd, hphase⟩
  rcases hbefore with hnone | ⟨before, hbefore, hlink'⟩
  · cases hnone.symm.trans hd
  · exact h p before id d hbefore hlink' hd hphase

theorem Waits.run {P : State Job Report → Label Job → Prop}
    (h : Run (Cluster.step site Job.program) P (State.launch nodes) tr s) : Waits s :=
  h.state_invariant (by simp [Waits, State.launch]) fun _ _ _ _ hrun hI _ hs =>
    hI.step (Coherent.run hrun) (step_cases hs)

/-- On a node that is up, a connection goes on until the client is done with it. -/
theorem Carries.can_advance {i : Nat} {c : Call} {conn : Storage.Conn} (h : Carries s i c conn)
    (hrun : (s.storage i).running = true) (hnone : conn.advance (s.storage i) = none) :
    ∃ a, conn.conv = .done a := by
  cases h with
  | store ip port hash data acked _ hup hpos _ =>
      cases hpos with
      | command =>
          simp [Conn.advance, Conn.opened, StorageNode.work, StorageNode.receive, storeConv,
            hrun] at hnone
      | ready => simp [Conn.advance, StorageNode.work] at hnone
      | data => simp [Conn.advance, StorageNode.work, StorageNode.receive, hrun] at hnone
      | storing => simp [Conn.advance, StorageNode.work, hrun] at hnone
      | acked => simp [Conn.advance, StorageNode.work] at hnone
      | complete => exact ⟨_, rfl⟩
      | lost _ _ _ => exact ⟨_, rfl⟩
  | fetch ip port hash arrives _ hword hpos =>
      cases hpos with
      | command =>
          simp [Conn.advance, Conn.opened, StorageNode.work, StorageNode.receive, fetchConv,
            hrun] at hnone
      | lookup => simp [Conn.advance, StorageNode.work, hrun] at hnone
      | found data _ => simp [Conn.advance, StorageNode.work] at hnone
      | data data _ => simp [Conn.advance, StorageNode.work] at hnone
      | complete data _ => exact ⟨_, rfl⟩
      | missing => simp [Conn.advance, StorageNode.work] at hnone
      | failed _ _ _ => exact ⟨_, rfl⟩

/-- The download of a name without a word: metadata nodes do not answer its lookup. -/
def Blank (job : Job) : Prop :=
  ∃ client filename output, job = .download client filename output ∧ readWord filename = none

/-- A process that is about to call can do so, or finds that nobody is there. -/
theorem can_call (hlists : Lists site client.metadataNodes)
    (hcoherent : Coherent site Job.program nodes s)
    (hcalm : Chain.Calm site.net nodes s.chain) (hp : s.procs p = some proc)
    (hclient : proc.job.client = client) (hlink : proc.link = .idle) {c : Call}
    {next : Bytes → Program Call Bytes Report} (hcall : proc.program = .call c next) :
    ∃ l s', Working site s l ∧ Cluster.step site Job.program s l = some s' := by
  have hrefuse : Unserved site s c → ∃ l s', Working site s l ∧
      Cluster.step site Job.program s l = some s' := by
    intro hunserved
    refine ⟨.refuse p, s.setProc p (proc.answer c next []), ?_,
      by simp [Cluster.step, hp, hlink, hcall]⟩
    intro proc' c' next' hp' hcall'
    cases hp.symm.trans hp'
    cases hcall.symm.trans hcall'
    exact hunserved
  cases hstorage : site.storageTarget c with
  | some i =>
      cases hrun : (s.storage i).running with
      | true =>
          exact ⟨.connect p, s.setProc p (proc.setLink (.storage i (Conn.opened c.conv))), trivial,
            by simp [Cluster.step, hp, hlink, hcall, connect, hstorage, hrun]⟩
      | false =>
          refine hrefuse ⟨?_, fun j hj => ?_⟩
          · cases c with
            | store => rfl
            | fetch => rfl
            | put => cases hstorage
            | lookup => cases hstorage
          · cases hstorage.symm.trans hj
            exact hrun
  | none =>
      -- A call that goes to no storage node goes to a metadata node, or nowhere.
      by_cases hmeta : ToMetadata c
      · have haimed := ((hcoherent.process p proc hp).2.calls proc.job.aimed).1
        rw [hcall, hclient] at haimed
        rcases hlists.target haimed.1 hmeta with ⟨v, line, hv, htarget⟩
        have hconnect : Chain.step site.net s.chain (.connect v (firstFrame line)) = some
            (s.chain.addConn
              { node := v
                command := firstFrame line
                parent := none
                origin := s.chain.opened
                phase := .received
                lost := false }) := by
          simp only [Chain.step]
          rw [if_pos ⟨hv, hcalm.wires.up v, length_firstFrame_lt line⟩]
        exact ⟨.connect p, _, trivial, step_dial hp hlink hcall htarget hconnect⟩
      · refine hrefuse ⟨?_, fun j hj => by cases hstorage.symm.trans hj⟩
        cases c with
        | store => rfl
        | fetch => rfl
        | put => exact absurd (Or.inl trivial) hmeta
        | lookup => exact absurd (Or.inr trivial) hmeta

/-- A process that talks to a storage node can go on, or notices that the node has crashed. -/
theorem can_transfer (hstocks : Stocks site s) (hp : s.procs p = some proc) {i : Nat}
    {conn : Storage.Conn} (hlink : proc.link = .storage i conn) {c : Call}
    {next : Bytes → Program Call Bytes Report} (hcall : proc.program = .call c next) :
    ∃ l s', Working site s l ∧ Cluster.step site Job.program s l = some s' := by
  by_cases hdone : ∃ a, conn.conv = .done a
  · rcases hdone with ⟨a, hdone⟩
    exact ⟨.finish p, { s.setProc p (proc.answer c next a) with
      orphans := s.orphans ++ [(i, conn)] }, trivial,
      by simp [Cluster.step, hp, hlink, hcall, hdone]⟩
  · cases hadvance : conn.advance (s.storage i) with
    | some r =>
        exact ⟨.transfer p, (s.setStorage i r.1).setProc p (proc.setLink (.storage i r.2)),
          trivial, by simp [Cluster.step, hp, hlink, hadvance]⟩
    | none =>
        rcases hstocks.linked p proc i conn hp hlink with ⟨_, _, _, _, hcarries⟩
        have hdown : (s.storage i).running = false := by
          cases hrun : (s.storage i).running with
          | false => rfl
          | true => exact absurd (hcarries.can_advance hrun hadvance) hdone
        refine ⟨.lose p, s.setProc p (proc.setLink (.storage i conn.lose)), ⟨?_, ?_⟩,
          by simp [Cluster.step, hp, hlink]⟩
        · intro proc' i' conn' hp' hlink'
          cases hp.symm.trans hp'
          cases hlink.symm.trans hlink'
          exact hdown
        · intro proc' i' conn' hp' hlink' a hdone'
          cases hp.symm.trans hp'
          cases hlink.symm.trans hlink'
          exact hdone ⟨a, hdone'⟩

/-- A process whose lookup or `PUT` has been served has its answer. -/
theorem can_hear (hp : s.procs p = some proc) {id : Nat} (hlink : proc.link = .metadata id)
    {c : Call} {next : Bytes → Program Call Bytes Report} (hcall : proc.program = .call c next)
    {conn : Metadata.Conn} (hconn : s.chain.conns id = some conn) (hparent : conn.parent = none)
    {reply : Bytes} (hreply : conn.phase = .replied reply) :
    ∃ l s', Working site s l ∧ Cluster.step site Job.program s l = some s' := by
  cases hlost : conn.lost with
  | true =>
      exact ⟨.finish p, s.setProc p (proc.answer c next []), trivial,
        by simp [Cluster.step, hp, hlink, hcall, hangUp, hconn, hlost]⟩
  | false =>
      have htake : Chain.step site.net s.chain (.take id) =
          some (s.chain.setPhase id conn .taken) := by
        simp [Chain.step, hconn, hreply, hparent, hlost]
      exact ⟨.finish p, { s.setProc p (proc.answer c next (firstFrame reply)) with
        chain := s.chain.setPhase id conn .taken }, trivial,
        by simp [Cluster.step, hp, hlink, hcall, hangUp, hconn, hlost, hreply, htake]⟩

/-- When no step is left, a process that has not returned downloads a blank name. -/
theorem blank_of_atRest (hwired : Wired site.net nodes) (hlists : Lists site client.metadataNodes)
    (h : Run (Cluster.step site Job.program) (Permitted site client) (State.launch nodes) tr s)
    (hrest : AtRest site s) (hp : s.procs p = some proc) {c : Call}
    {next : Bytes → Program Call Bytes Report} (hcall : proc.program = .call c next) :
    Blank proc.job := by
  have hcoherent := Coherent.run h
  have hcalm := calm_of_run hwired h
  have hfit := jobs_fit h p proc hp
  have hstuck : ¬ ∃ l s', Working site s l ∧ Cluster.step site Job.program s l = some s' := by
    rintro ⟨l, s', hworking, hs⟩
    cases (hrest l hworking).symm.trans hs
  cases hlink : proc.link with
  | idle =>
      exact absurd (can_call hlists hcoherent hcalm hp hfit.1 hlink hcall) hstuck
  | storage i conn => exact absurd (can_transfer (Stocks.run h) hp hlink hcall) hstuck
  | metadata id =>
      rcases hcoherent.dialed p proc id hp hlink with
        ⟨c', next', v, line, conn, hcall', htarget, hconn, _, hcommand, hparent, _⟩
      cases hcall.symm.trans hcall'
      have hline := line_of_asks (hcoherent.asks hp hcall) htarget
      rw [hline, firstFrame_of_lt hfit.2.1] at hcommand
      -- The chain rests as well, so the request has been served.
      have hserved : Chain.Served site.net s.chain conn := by
        rcases chain_run h with ⟨tr', hchain⟩
        have hserves : ∀ k, Chain.step site.net s.chain (.serve k) = none := by
          intro k
          have hnone := hrest (.chain (.serve k)) trivial
          simpa [Cluster.step, internal] using hnone
        rcases Chain.finished_or_stranded hcalm.basic (Chain.awaited_run hchain) hserves hconn
          (hcalm.wires.up _) with hfinished | hstranded
        · exact hcalm.served hconn hfinished
        · exact absurd hstranded (Chain.not_stranded hcalm.wires.up)
      have hreplied : ¬ ∃ reply, conn.phase = .replied reply := by
        rintro ⟨reply, hreply⟩
        exact hstuck (can_hear hp hlink hcall hconn hparent hreply)
      have htaken := Waits.run h p proc id conn hp hlink hconn
      cases hjob : proc.job with
      | upload client' file =>
          rw [hjob] at hfit hcommand
          simp only [Chain.Served, hcommand, Job.line,
            request_putLine (wellFormed_of_fit hfit.2)] at hserved
          exact absurd hserved.1 (not_or.2 ⟨fun hack => hreplied ⟨_, hack⟩, htaken⟩)
      | download client' filename output =>
          cases hword : readWord filename with
          | none => exact ⟨client', filename, output, rfl, hword⟩
          | some r =>
              rcases r with ⟨name, rest⟩
              rw [hjob] at hcommand
              simp only [Chain.Served, hcommand, Job.line, request_getLine_of_readWord hword]
                at hserved
              exact absurd hserved (not_or.2 ⟨hreplied, htaken⟩)

/-- A process stays with its job. -/
theorem process_of_run {P P' : State Job Report → Label Job → Prop}
    {tr' : List (State Job Report × Label Job)}
    (h : Run (Cluster.step site Job.program) P (State.launch nodes) tr s)
    (h' : Run (Cluster.step site Job.program) P' s tr' s') (hp : s.procs p = some proc) :
    ∃ proc', s'.procs p = some proc' ∧ proc'.job = proc.job := by
  refine h'.state_invariant (I := fun s' => ∃ proc', s'.procs p = some proc' ∧
    proc'.job = proc.job) ⟨proc, hp, rfl⟩ ?_
  rintro tr₁ t l t' hrun ⟨proc₁, hproc₁, hjob⟩ _ hs
  have hcoherent := Coherent.run (h.append hrun)
  rcases (step_cases hs).process_of hcoherent.fresh hproc₁ with ⟨proc₂, hproc₂, hacts⟩
  exact ⟨proc₂, hproc₂, hacts.succeeds.job.trans hjob⟩

end

/-- An upload has been started, and nothing has been done for it yet. -/
def abcStarted : List (State Job Report × Label Job) × State Job Report :=
  abcReplayed (State.launch (localNodes 1)) [.start abcUploadJob]

theorem run_abcStarted : AbcRun (State.launch (localNodes 1)) abcStarted.1 abcStarted.2 :=
  run_abc (by decide +kernel) (by simp [IsAbc])

end Cluster
end Dfs

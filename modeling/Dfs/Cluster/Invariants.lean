import Dfs.Cluster.Steps

/-!
# What every run of the system keeps

Whatever fails: a process has made the calls of its trace, its connection to a metadata node carries
the line of the call it is at, and every connection that a process has opened to the chain is
accounted for.  Nothing that is stored, acknowledged or logged is taken back.
-/

namespace Dfs
namespace Cluster

open Bytes Network Client Storage Metadata Program

section

variable {J ρ : Type} {site : Site} {program : J → Program Call Bytes ρ}
  {nodes : Nat → MetadataNode} {s s' : State J ρ} {l : Label J}

/-- `nodes` are the metadata nodes as they were launched. -/
structure Coherent (site : Site) (program : J → Program Call Bytes ρ)
    (nodes : Nat → MetadataNode) (s : State J ρ) : Prop where
  chain : Chain.Basic site.net nodes s.chain
  process : ∀ p proc, s.procs p = some proc →
    p < s.started ∧ Follows (program proc.job) proc.trace proc.program
  owned : ∀ id p, s.owner id = some p →
    id < s.chain.opened ∧ ∃ proc, s.procs p = some proc ∧ Turned proc
  dialed : ∀ p proc id, s.procs p = some proc → proc.link = .metadata id →
    ∃ c next v line conn, proc.program = .call c next ∧ site.metadataTarget c = some (v, line) ∧
      s.chain.conns id = some conn ∧ conn.node = v ∧ conn.command = firstFrame line ∧
      conn.parent = none ∧ s.owner id = some p

theorem toMetadata_of_target {c : Call} {v : Nat} {line : Bytes}
    (h : site.metadataTarget c = some (v, line)) : ToMetadata c := by
  cases c with
  | store => cases h
  | fetch => cases h
  | put => exact Or.inl trivial
  | lookup => exact Or.inr trivial

theorem coherent_launch : Coherent site program nodes (State.launch nodes : State J ρ) where
  chain := Chain.basic_launch
  process := by simp [State.launch]
  owned := by simp [State.launch]
  dialed := by simp [State.launch]

/-- A step of the system takes at most one step of the chain. -/
theorem Step.chain_step (h : Step site program s l s') :
    s'.chain = s.chain ∨ ∃ lc, Chain.step site.net s.chain lc = some s'.chain := by
  cases h with
  | dialMetadata p proc c next v line chain _ _ _ _ hchain => exact Or.inr ⟨_, hchain⟩
  | hear p proc c next id conn reply chain _ _ _ _ _ hchain => exact Or.inr ⟨_, hchain⟩
  | chain l chain _ hchain => exact Or.inr ⟨l, hchain⟩
  | nextFrame id conn chain _ _ hchain => exact Or.inr ⟨_, hchain⟩
  | _ => exact Or.inl rfl

/-- The owner of a connection does not change, and a new one has just dialed. -/
theorem Step.owner (h : Step site program s l s') {id p : Nat} (hid : s'.owner id = some p) :
    s.owner id = some p ∨
      id = s.chain.opened ∧ s'.chain.opened = s.chain.opened + 1 ∧
        ∃ proc c next v line, s.procs p = some proc ∧ proc.link = .idle ∧
          proc.program = .call c next ∧ site.metadataTarget c = some (v, line) ∧
          s'.procs p = some (proc.setLink (.metadata id)) ∧
          Chain.step site.net s.chain (.connect v (firstFrame line)) = some s'.chain := by
  cases h with
  | dialMetadata q proc c next v line chain hq hlink hcall htarget hchain =>
      by_cases hne : id = s.chain.opened
      · subst hne
        have hp : q = p := by simpa [dial] using hid
        subst hp
        refine Or.inr ⟨rfl, ?_, proc, c, next, v, line, hq, hlink, hcall, htarget, ?_, hchain⟩
        · cases Chain.step_cases hchain
          rfl
        · simp [dial]
      · exact Or.inl (by simpa [dial, hne] using hid)
  | _ => exact Or.inl hid

/-- What every step keeps. -/
structure Grows (s s' : State J ρ) : Prop where
  storage : ∀ i, Kept (s.storage i) (s'.storage i)
  process : ∀ p proc, s.procs p = some proc → ∃ proc', s'.procs p = some proc' ∧ Succeeds proc proc'
  owner : ∀ id p, s.owner id = some p → s'.owner id = some p
  conns : Chain.Persist s.chain s'.chain
  log : s.chain.log.Sublist s'.chain.log

theorem Coherent.fresh (h : Coherent site program nodes s) : s.procs s.started = none := by
  cases hp : s.procs s.started with
  | none => rfl
  | some proc => exact absurd (h.process _ proc hp).1 (lt_irrefl _)

theorem Coherent.grows (h : Coherent site program nodes s) (hstep : Step site program s l s') :
    Grows s s' where
  storage := by
    intro j
    have hupdate : ∀ {i : Nat} {node : StorageNode}, Kept (s.storage i) node →
        Kept (s.storage j) ((s.setStorage i node).storage j) := by
      intro i node hkept
      by_cases hj : j = i
      · subst hj
        simpa using hkept
      · simpa [hj] using Kept.refl (s.storage j)
    cases hstep with
    | transfer p proc i conn conn' node _ _ hadvance => exact hupdate (Conn.kept_advance hadvance)
    | late k i conn conn' node _ hadvance => exact hupdate (Conn.kept_advance hadvance)
    | crash i => exact hupdate (kept_stop _)
    | _ => exact Kept.refl _
  process := by
    intro q d hq
    rcases hstep.process_of h.fresh hq with ⟨d', hd', hacts⟩
    exact ⟨d', hd', hacts.succeeds⟩
  owner := by
    intro id p hid
    cases hstep with
    | dialMetadata q proc c next v line chain _ _ _ _ _ =>
        have hne : id ≠ s.chain.opened := (h.owned id p hid).1.ne
        simpa [dial, hne] using hid
    | _ => exact hid
  conns := by
    rcases hstep.chain_step with heq | ⟨lc, hlc⟩
    · rw [heq]
      exact Chain.Persist.refl _
    · exact (Chain.step_cases hlc).persist h.chain
  log := by
    rcases hstep.chain_step with heq | ⟨lc, hlc⟩
    · rw [heq]
    · exact (Chain.step_cases hlc).log_sublist

theorem Coherent.step (h : Coherent site program nodes s) (hstep : Step site program s l s') :
    Coherent site program nodes s' where
  chain := by
    rcases hstep.chain_step with heq | ⟨lc, hlc⟩
    · rw [heq]
      exact h.chain
    · exact h.chain.step (Chain.step_cases hlc)
  process := by
    intro q d hd
    have hstarted : s.started ≤ s'.started := by
      cases hstep with
      | start job => exact Nat.le_succ _
      | _ => exact le_refl _
    rcases hstep.process hd with ⟨job, rfl, rfl, rfl⟩ | ⟨d', hd', hacts⟩
    · cases hstep
      exact ⟨Nat.lt_succ_self _, .start⟩
    · rcases h.process q d' hd' with ⟨hlt, hfollows⟩
      exact ⟨hlt.trans_le hstarted, hacts.succeeds.follows hfollows⟩
  owned := by
    intro id p hid
    have hopened : s.chain.opened ≤ s'.chain.opened := by
      rcases hstep.chain_step with heq | ⟨lc, hlc⟩
      · rw [heq]
      · exact (Chain.step_cases hlc).opened_le
    rcases hstep.owner hid with hold | ⟨rfl, hnext, proc, c, next, v, line, hp, _, hcall, htarget, hp', _⟩
    · rcases h.owned id p hold with ⟨hlt, proc, hp, hturned⟩
      rcases (h.grows hstep).process p proc hp with ⟨proc', hp', hsucc⟩
      exact ⟨hlt.trans_le hopened, proc', hp', hsucc.turned hturned⟩
    · exact ⟨by omega, _, hp', Or.inr ⟨c, next, hcall, toMetadata_of_target htarget⟩⟩
  dialed := by
    have hgrows := h.grows hstep
    have hkeep : ∀ q d id, s.procs q = some d → d.link = .metadata id →
        ∃ c next v line conn, d.program = .call c next ∧ site.metadataTarget c = some (v, line) ∧
          s'.chain.conns id = some conn ∧ conn.node = v ∧ conn.command = firstFrame line ∧
          conn.parent = none ∧ s'.owner id = some q := by
      intro q d id hq hlink
      rcases h.dialed q d id hq hlink with
        ⟨c, next, v, line, conn, hcall, htarget, hconn, hnode, hcommand, hparent, howner⟩
      rcases hgrows.conns id conn hconn with ⟨phase, lost, hconn'⟩
      exact ⟨c, next, v, line, _, hcall, htarget, hconn', hnode, hcommand, hparent,
        hgrows.owner id q howner⟩
    intro q d id hq hlink
    rcases hstep.process hq with ⟨_, _, _, rfl⟩ | ⟨d', hd', hacts⟩
    · cases hlink
    · cases hacts with
      | same => exact hkeep q d id hd' hlink
      | dialMetadata c next v line _ hcall htarget hchain howner =>
          cases hlink
          rcases Chain.conn_of_connect hchain with ⟨conn, hconn, hnode, hcommand, hparent, _⟩
          exact ⟨c, next, v, line, conn, hcall, htarget, hconn, hnode, hcommand, hparent, howner⟩
      | _ => cases hlink

theorem Coherent.run {P : State J ρ → Label J → Prop} {tr : List (State J ρ × Label J)}
    (h : Run (Cluster.step site program) P (State.launch nodes) tr s) : Coherent site program nodes s :=
  h.state_invariant coherent_launch fun _ _ _ _ _ hI _ hs => hI.step (step_cases hs)

end

end Cluster
end Dfs

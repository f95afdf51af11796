import Dfs.Metadata.Recovery

/-!
# One chain again

After crashes of nodes that are no neighbours, and once the node before each crashed one has
recovered and its notice has been served, the next links lead from the first node over all live
ones, and the predecessors lead back.
-/

namespace Dfs
namespace Metadata

open Bytes TextScan MetadataNode

namespace Chain

/-- The nodes on the way along `nextNodeIp_` and `nextNodePort_`, at most `fuel` of them. -/
def follow (net : Network) (s : Chain) : Nat → Nat → List Nat
  | 0, _ => []
  | fuel + 1, v =>
      v ::
        if (s.nodes v).nextNodePort = -1 then []
        else
          match net.resolve (s.nodes v).nextNodeIp (s.nodes v).nextNodePort with
          | none => []
          | some w => follow net s fuel w

/-- The live nodes from a node on. -/
def liveFrom (net : Network) (s : Chain) (v : Nat) : List Nat :=
  (List.range' v (net.size - v)).filter fun w => s.up w

/-- The live nodes are one chain. -/
structure OneChain (net : Network) (a : Addresses net) (s : Chain) : Prop where
  path : ∀ fuel, net.size ≤ fuel →
    s.follow net fuel 0 = (List.range net.size).filter fun v => s.up v
  inner : ∀ v w, v < w → w < net.size → s.up v = true → s.up w = true →
    (s.nodes v).role ≠ .tail ∧ (s.nodes v).role ≠ .single ∧ (s.nodes v).nextNodePort ≠ -1
  last : ∀ v < net.size, s.up v = true → (∀ w, v < w → w < net.size → s.up w = false) →
    (s.nodes v).role = (if v = 0 then .single else .tail) ∧ (s.nodes v).nextNodePort = -1
  prev : ∀ u v, u < v → v < net.size → s.up u = true → s.up v = true →
    (∀ w, u < w → w < v → s.up w = false) → (s.nodes v).prevNodePort = a.port u

/-- The node before each crashed one has run `handleNextNodeFailure`, and no `UPDATE_PREV` is
waiting for its handler. -/
structure Settled (net : Network) (tr : List (Chain × Label)) (s : Chain) : Prop where
  recovered : ∀ v, v + 1 < net.size → s.up (v + 1) = false → .recover v ∈ tr.map Prod.snd
  served : ∀ id c args, s.conns id = some c →
    readWord c.command = some (ascii "UPDATE_PREV", args) → c.phase ≠ .received

section

variable {net : Network} {a : Addresses net} {s : Chain} {v : Nat} {tr : List (Chain × Label)}

theorem liveFrom_up (hv : v < net.size) (hup : s.up v = true) :
    s.liveFrom net v = v :: s.liveFrom net (v + 1) := by
  have hsize : net.size - v = net.size - (v + 1) + 1 := by omega
  rw [liveFrom, hsize, List.range'_succ, List.filter_cons, if_pos hup, liveFrom]

theorem liveFrom_down (hv : v < net.size) (hdown : s.up v = false) :
    s.liveFrom net v = s.liveFrom net (v + 1) := by
  have hsize : net.size - v = net.size - (v + 1) + 1 := by omega
  rw [liveFrom, hsize, List.range'_succ, List.filter_cons, if_neg (by simp [hdown]), liveFrom]

theorem liveFrom_end (hv : net.size ≤ v) : s.liveFrom net v = [] := by
  rw [liveFrom, Nat.sub_eq_zero_of_le hv]
  rfl

theorem follow_next {w fuel : Nat} (hw : w < net.size)
    (hnext : (s.nodes v).nextNodeIp = a.ip w ∧ (s.nodes v).nextNodePort = a.port w) :
    s.follow net (fuel + 1) v = v :: s.follow net fuel w := by
  have hport := Addresses.port_ne (a := a) hw
  simp [follow, hnext.1, hnext.2, hport, a.resolve w hw]

theorem follow_last {fuel : Nat} (hport : (s.nodes v).nextNodePort = -1) :
    s.follow net (fuel + 1) v = [v] := by
  simp [follow, hport]

/-- A live node stands before a live one, before a crashed one, or at the end. -/
inductive Stand (a : Addresses net) (s : Chain) (v : Nat) : Prop where
  | before : v + 1 < net.size → s.up (v + 1) = true → a.Intact v (s.nodes v) → Stand a s v
  | across : v + 2 < net.size → s.up (v + 1) = false → s.up (v + 2) = true → Mended a s v →
      Stand a s v
  | last : (∀ w, v < w → w < net.size → s.up w = false) →
      (s.nodes v).role = (if v = 0 then .single else .tail) → (s.nodes v).nextNodePort = -1 →
      Stand a s v

theorem Links.stand (h : Links a s) (hn : 2 ≤ net.size) (hv : v < net.size)
    (hmended : ∀ v, v + 1 < net.size → s.up (v + 1) = false → Mended a s v) : Stand a s v := by
  by_cases hlast : v + 1 = net.size
  · rcases h.node v hv with hintact | hother
    · have hpos : v ≠ 0 := by omega
      refine .last (fun w hw hw' => by omega) ?_ (hintact.last hlast).2
      rw [if_neg hpos]
      exact (hintact.last hlast).1
    · exact absurd hother.inside (by omega)
  · have hinside : v + 1 < net.size := by omega
    cases hup : s.up (v + 1) with
    | true =>
        rcases h.node v hv with hintact | hother
        · exact .before hinside hup hintact
        · cases hup.symm.trans hother.crashed
    | false =>
        have hm := hmended v hinside hup
        by_cases hskip : v + 2 < net.size
        · exact .across hskip hup (h.nextUp_mended hm hskip).2 hm
        · have hend := hm.repaired.last (by omega)
          refine .last (fun w hw hw' => ?_) hend.1 hend.2.2
          have hw'' : w = v + 1 := by omega
          exact hw'' ▸ hup

/-- The way from a live node on. -/
theorem follow_eq_liveFrom (hstand : ∀ v < net.size, Stand a s v) (fuel : Nat) :
    ∀ v < net.size, s.up v = true → net.size - v ≤ fuel →
      s.follow net fuel v = s.liveFrom net v := by
  induction fuel with
  | zero =>
      intro v hv _ hfuel
      omega
  | succ fuel ih =>
      intro v hv hup hfuel
      rw [liveFrom_up hv hup]
      cases hstand v hv with
      | before hinside hnext hintact =>
          rw [follow_next hinside (hintact.next hinside), ih (v + 1) hinside hnext (by omega)]
      | across hskip hcrashed hnext hm =>
          rw [follow_next hskip (hm.repaired.next hskip), ih (v + 2) hskip hnext (by omega),
            liveFrom_down hm.inside hcrashed]
      | last hdown _ hport =>
          have hnone : s.liveFrom net (v + 1) = [] := by
            refine List.filter_eq_nil_iff.2 fun w hw => ?_
            rcases List.mem_range'_1.1 hw with ⟨hle, hlt⟩
            rw [hdown w (by omega) (by omega)]
            exact Bool.false_ne_true
          rw [follow_last hport, hnone]

/-- Once a notice has been served, the node knows the one before the crashed one. -/
theorem Links.prev_mended (h : Links a s) (hsettled : Settled net tr s) (hm : Mended a s v)
    (hskip : v + 2 < net.size) : (s.nodes (v + 2)).prevNodePort = a.port v := by
  have hv : v < net.size := by omega
  rcases hm.noticed hskip with ⟨k, d, hd, hnode, hcommand⟩
  have hword : readWord d.command = some (ascii "UPDATE_PREV",
      32 :: (ascii "127.0.0.1" ++ 32 :: showInt (a.port v))) := by
    rw [hcommand]
    exact readWord_append_space (by decide +kernel)
  rcases h.commands k d hd with hrequest | ⟨u, hnotice⟩
  · exact absurd (hcommand ▸ hrequest) (Addresses.not_isRequest_notice hv)
  · have hu : u = v := by
      have hnode' := hnotice.node
      omega
    subst hu
    exact hnotice.served (hsettled.served k d _ hd hword)

/-- It is enough to look at the connections opened so far. -/
theorem served_of_opened {nodes : Nat → MetadataNode} (hbasic : Basic net nodes s)
    (h : ∀ id < s.opened, ∀ c ∈ s.conns id, c.phase ≠ .received) (id : Nat) (c : Conn)
    (args : Bytes) (hc : s.conns id = some c)
    (_ : readWord c.command = some (ascii "UPDATE_PREV", args)) : c.phase ≠ .received :=
  h id (hbasic.opened id c hc).1 c hc

end

/-! ## Five nodes -/

/-- The nodes of the local machine, as many as there are ports. -/
def localAddresses (n : Nat) (hn : n < 56536) : Addresses (localNet n) where
  ip := fun _ => ascii "127.0.0.1"
  port := fun v => 9001 + v
  address := by
    intro v hv
    have hv' : v < n := hv
    exact ⟨by decide +kernel, by omega, by omega⟩
  resolve := by
    intro v hv
    have hv' : v < n := hv
    have hport : (9001 : Int) ≤ 9001 + v ∧ (9001 + v : Int) < 9001 + n := by omega
    have hindex : ((9001 + v : Int) - 9001).toNat = v := by omega
    simp only [localNet, if_pos hport, hindex]
  unset := by simp [localNet]

/-- The third and the last node crash, and the nodes before them recover. -/
def twoCrashes : List Label :=
  [.crash 4, .crash 2, .pingFails 1, .pingFails 3, .recover 3, .recover 1, .serve 0]

end Chain
end Metadata
end Dfs

import Dfs.Metadata.OneChain

/-!
# Acknowledged writes survive

In a chain with skip links, a forward reaches the next live node or none, whether the handler asks
for the address before or after the recovery, and a node that forwards nothing has no live node
behind it.  So what a node has acknowledged is stored at every live node from it on.
-/

namespace Dfs
namespace Metadata

open Bytes TextScan MetadataNode

namespace Chain

section

variable {net : Network} {a : Addresses net} {s s₁ : Chain} {v : Nat} {tr : List (Chain × Label)}

theorem mustForward_inner {node : MetadataNode} {w : Nat}
    (hrole : node.role = .head ∨ node.role = .middle) (hw : w < net.size)
    (hport : node.nextNodePort = a.port w) : node.mustForward = true := by
  have hne := Addresses.port_ne (a := a) hw
  rcases hrole with hrole | hrole <;> simp [mustForward, hrole, hport, hne]

/-- Behind a node that forwards nothing, no node is live. -/
theorem Links.end_of_not_mustForward (h : Links a s) (hv : v < net.size)
    (hmust : (s.nodes v).mustForward = false) {w : Nat} (hvw : v < w) (hw : w < net.size) :
    s.up w = false := by
  rcases h.node v hv with hintact | hm
  · -- An intact node before another one forwards.
    have hinside : v + 1 < net.size := by omega
    have hforward := mustForward_inner (hintact.inner hinside) hinside (hintact.next hinside).2
    cases hforward.symm.trans hmust
  · by_cases hskip : v + 2 < net.size
    · have hforward :=
        mustForward_inner (hm.repaired.inner hskip) hskip (hm.repaired.next hskip).2
      cases hforward.symm.trans hmust
    · have hw' : w = v + 1 := by
        have hinside := hm.inside
        omega
      exact hw' ▸ hm.crashed

/-- A forward passes over no live node. -/
theorem Links.next_le_live (h : Links a s) (hv : v < net.size) {x : Nat}
    (hx : s.nextUp net v = some x) {w : Nat} (hvw : v < w) (hw : w < net.size)
    (hup : s.up w = true) : x ≤ w := by
  rcases h.node v hv with hintact | hm
  · have hinside : v + 1 < net.size := by omega
    have hresolve := (nextUp_eq_some hx).1
    rw [(hintact.next hinside).1, (hintact.next hinside).2, a.resolve (v + 1) hinside] at hresolve
    have hnext := Option.some.inj hresolve
    omega
  · have hne : w ≠ v + 1 := by
      rintro rfl
      cases hup.symm.trans hm.crashed
    by_cases hskip : v + 2 < net.size
    · rw [(h.nextUp_mended hm hskip).1] at hx
      have hnext := Option.some.inj hx
      omega
    · omega

/-- At all times: what a node has acknowledged has been answered at every live node from it on. -/
theorem acknowledged_run (h : Run (Chain.step net) (Repairing net) (launch a.linked) tr s) :
    Acknowledged (fun _ => True) net.size (fun w => s.up w = true) s := by
  refine h.state_invariant
    (I := fun s => Acknowledged (fun _ => True) net.size (fun w => s.up w = true) s)
    acknowledged_launch ?_
  intro tr s l s' hrun hack hfree hs
  have hbasic := Basic.run hrun
  have hlinks := (links_run hrun).1
  have hstep := step_cases hs
  have hkept : Acknowledged (fun _ => True) net.size (fun w => s.up w = true) s' := by
    refine hack.step hbasic hstep ?_ ?_
    · intro id c hc _ hmust _ w hvw hw hup
      have hdown := hlinks.end_of_not_mustForward (hbasic.opened id c hc).2 hmust hvw hw
      cases hup.symm.trans hdown
    · intro id c x hc _ hx _ w hvw hw hup
      exact hlinks.next_le_live (hbasic.opened id c hc).2 hx hvw hw hup
  exact hkept.mono fun w hup => hstep.up_of_up hup

end

/-! ## Three nodes -/

/-- The second node crashes while the first is about to forward to it. -/
def crashOnTheWay : List Label :=
  [.connect 0 (ascii "PUT a 1 2 3 r x"), .serve 0, .serve 0, .crash 1, .pingFails 0, .recover 0,
    .serve 0, .serve 2, .serve 2, .serve 0]

end Chain
end Metadata
end Dfs

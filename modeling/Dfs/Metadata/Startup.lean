import Dfs.Common.NodeConfig
import Dfs.Metadata.MetadataNode

/-!
# Starting the metadata nodes

`main` of the metadata node program: each process reads the configuration for itself and works out
the one address it needs, that of the node behind it.  Over one file, and whatever the order of its
lines, the processes agree on a chain.
-/

namespace Dfs
namespace Metadata

open Bytes Common

/-! ## The program -/

/-- The metadata nodes of a configuration, by increasing id. -/
def metadataNodes (allNodes : List NodeInfo) : List NodeInfo :=
  (allNodes.filter fun n => 11 ≤ n.id).mergeSort fun a b => a.id ≤ b.id

/-- The loop over the sorted nodes: the address behind that of `nodeId`. -/
def findNext (nodeId : Int) : List NodeInfo → Bytes × Int
  | [] => ([], -1)
  | n :: rest =>
      if n.id = nodeId then
        match rest with
        | [] => ([], -1)
        | m :: _ => (m.host, m.port)
      else findNext nodeId rest

/-- `main` on a configuration file and a node id: the node as it starts to listen, or `none` if the
id is not in the file. -/
def mainMetadataNode (configFile : Option Bytes) (nodeId : Int) : Option MetadataNode :=
  let nodes := loadConfig configFile
  let myNode := getMyNode nodes nodeId
  if myNode.port = 0 ∧ myNode.host = [] then none
  else
    let (nextIp, nextPort) := findNext nodeId (metadataNodes nodes)
    some (MetadataNode.launch nextIp nextPort myNode.port)

/-! ## The chain -/

/-- `m` has the smallest id above that of `n`. -/
structure Successor (path : List NodeInfo) (n m : NodeInfo) : Prop where
  mem : m ∈ path
  above : n.id < m.id
  least : ∀ other ∈ path, n.id < other.id → m.id ≤ other.id

/-- `n` has the largest id. -/
def Last (path : List NodeInfo) (n : NodeInfo) : Prop :=
  ∀ other ∈ path, other.id ≤ n.id

/-- The process of `n`, linked to the chain of the nodes of `path`. -/
structure Linked (path : List NodeInfo) (n : NodeInfo) (node : MetadataNode) : Prop where
  port : node.myPort = n.port
  next : ∀ m, Successor path n m → node.nextNodeIp = m.host ∧ node.nextNodePort = m.port
  tail_iff : node.role = .tail ↔ Last path n
  end_iff : node.nextNodePort = -1 ↔ Last path n

theorem metadataNodes_perm (nodes : List NodeInfo) :
    (metadataNodes nodes).Perm (nodes.filter fun n => 11 ≤ n.id) :=
  List.mergeSort_perm _ _

theorem metadataNodes_pairwise {nodes : List NodeInfo} (h : (nodes.map NodeInfo.id).Nodup) :
    (metadataNodes nodes).Pairwise fun a b => a.id < b.id := by
  have hsorted := @List.pairwise_mergeSort NodeInfo (fun a b => decide (a.id ≤ b.id))
    (fun a b c hab hbc => by
      simp only [decide_eq_true_eq] at hab hbc ⊢
      exact le_trans hab hbc)
    (fun a b => by simpa using le_total a.id b.id) (nodes.filter fun n => 11 ≤ n.id)
  have hdistinct : (metadataNodes nodes).Pairwise fun a b => a.id ≠ b.id := by
    have hfilter : ((nodes.filter fun n => 11 ≤ n.id).map NodeInfo.id).Nodup :=
      h.sublist (List.filter_sublist.map NodeInfo.id)
    have hids : ((metadataNodes nodes).map NodeInfo.id).Nodup :=
      ((metadataNodes_perm nodes).map NodeInfo.id).nodup_iff.2 hfilter
    exact List.pairwise_map.1 hids
  refine (hsorted.and hdistinct).imp ?_
  rintro a b ⟨hle, hne⟩
  exact lt_of_le_of_ne (of_decide_eq_true hle) hne

section Path

variable {path pre post : List NodeInfo} {n m : NodeInfo}

theorem findNext_split (hpath : path = pre ++ n :: post)
    (hsorted : path.Pairwise fun a b => a.id < b.id) :
    findNext n.id path = (post.head?.elim ([], -1) fun m => (m.host, m.port)) := by
  subst hpath
  have hpre : ∀ a ∈ pre, a.id < n.id := by
    intro a ha
    exact (List.pairwise_append.1 hsorted).2.2 a ha n (by simp)
  clear hsorted
  induction pre with
  | nil => cases post <;> simp [findNext]
  | cons a pre ih =>
      have hne : a.id ≠ n.id := ne_of_lt (hpre a (by simp))
      have htail := ih fun b hb => hpre b (by simp [hb])
      simpa [findNext, hne] using htail

theorem successor_split (hpath : path = pre ++ n :: m :: post)
    (hsorted : path.Pairwise fun a b => a.id < b.id) : Successor path n m := by
  subst hpath
  have hbehind := (List.pairwise_append.1 hsorted).2.1
  have hhead : ∀ a ∈ m :: post, n.id < a.id := fun a ha => List.rel_of_pairwise_cons hbehind ha
  refine ⟨by simp, hhead m (by simp), ?_⟩
  intro other hother habove
  rcases List.mem_append.1 hother with hpre | hrest
  · have hlt := (List.pairwise_append.1 hsorted).2.2 other hpre n (by simp)
    exact absurd habove (not_lt_of_gt hlt)
  · rcases List.mem_cons.1 hrest with rfl | hrest
    · exact absurd habove (lt_irrefl _)
    · rcases List.mem_cons.1 hrest with rfl | hpost
      · exact le_rfl
      · exact le_of_lt (List.rel_of_pairwise_cons hbehind.of_cons hpost)

theorem last_split (hpath : path = pre ++ [n])
    (hsorted : path.Pairwise fun a b => a.id < b.id) : Last path n := by
  subst hpath
  intro other hother
  rcases List.mem_append.1 hother with hpre | hself
  · exact le_of_lt ((List.pairwise_append.1 hsorted).2.2 other hpre n (by simp))
  · rw [List.mem_singleton.1 hself]

theorem last_or_successor (hsorted : path.Pairwise fun a b => a.id < b.id) (hn : n ∈ path) :
    Last path n ∨ ∃ m, Successor path n m := by
  obtain ⟨pre, post, hpath⟩ := List.append_of_mem hn
  cases post with
  | nil => exact Or.inl (last_split hpath hsorted)
  | cons m post => exact Or.inr ⟨m, successor_split hpath hsorted⟩

theorem Successor.unique (hsorted : path.Pairwise fun a b => a.id < b.id) {m' : NodeInfo}
    (h : Successor path n m) (h' : Successor path n m') : m = m' := by
  have hid : m.id = m'.id := le_antisymm (h.least m' h'.mem h'.above) (h'.least m h.mem h.above)
  have hinj : (path.map NodeInfo.id).Nodup := by
    rw [List.Nodup, List.pairwise_map]
    exact hsorted.imp ne_of_lt
  exact List.inj_on_of_nodup_map hinj h.mem h'.mem hid

/-- Two nodes with the same successor are the same. -/
theorem Successor.injective (hsorted : path.Pairwise fun a b => a.id < b.id) {n' : NodeInfo}
    (hn : n ∈ path) (hn' : n' ∈ path) (h : Successor path n m) (h' : Successor path n' m) :
    n = n' := by
  have hinj : (path.map NodeInfo.id).Nodup := by
    rw [List.Nodup, List.pairwise_map]
    exact hsorted.imp ne_of_lt
  refine List.inj_on_of_nodup_map hinj hn hn' ?_
  rcases lt_trichotomy n.id n'.id with hlt | heq | hgt
  · exact absurd h'.above (not_lt_of_ge (h.least n' hn' hlt))
  · exact heq
  · exact absurd h.above (not_lt_of_ge (h'.least n hn hgt))

/-- The loop over the sorted nodes links the process of each of them. -/
theorem linked_launch (hsorted : path.Pairwise fun a b => a.id < b.id)
    (hports : ∀ a ∈ path, 1 ≤ a.port) (hn : n ∈ path) :
    Linked path n
      (MetadataNode.launch (findNext n.id path).1 (findNext n.id path).2 n.port) := by
  obtain ⟨pre, post, hpath⟩ := List.append_of_mem hn
  rw [findNext_split hpath hsorted]
  cases post with
  | nil =>
      have hlast : Last path n := last_split hpath hsorted
      refine ⟨rfl, ?_, ?_, ?_⟩
      · intro m hm
        exact absurd (hlast m hm.mem) (not_le_of_gt hm.above)
      · simp [MetadataNode.launch, hlast]
      · simp [MetadataNode.launch, hlast]
  | cons m post =>
      have hsucc := successor_split hpath hsorted
      have hlast : ¬ Last path n := fun h => absurd (h m hsucc.mem) (not_le_of_gt hsucc.above)
      have hport : m.port ≠ -1 := by
        have hpos := hports m hsucc.mem
        omega
      refine ⟨rfl, ?_, ?_, ?_⟩
      · intro m' hm'
        rw [hm'.unique hsorted hsucc]
        exact ⟨rfl, rfl⟩
      · simp [MetadataNode.launch, hlast, hport]
      · simp [MetadataNode.launch, hlast, hport]

end Path

/-! ## Independent starts -/

theorem mainMetadataNode_of_mem {content : Bytes} {n : NodeInfo}
    (hids : ((loadConfig (some content)).map NodeInfo.id).Nodup)
    (hn : n ∈ loadConfig (some content)) (hport : n.port ≠ 0) :
    mainMetadataNode (some content) n.id =
      some (MetadataNode.launch (findNext n.id (metadataNodes (loadConfig (some content)))).1
        (findNext n.id (metadataNodes (loadConfig (some content)))).2 n.port) := by
  simp [mainMetadataNode, getMyNode_of_mem hids hn, hport]

/-- A process computes the same whatever the order of the lines. -/
theorem mainMetadataNode_perm {content content' : Bytes}
    (hids : ((loadConfig (some content)).map NodeInfo.id).Nodup)
    (hlines : (getLines content').Perm (getLines content)) (nodeId : Int) :
    mainMetadataNode (some content') nodeId = mainMetadataNode (some content) nodeId := by
  have hnodes : (loadConfig (some content')).Perm (loadConfig (some content)) :=
    hlines.filterMap readNode
  have hids' : ((loadConfig (some content')).map NodeInfo.id).Nodup :=
    (hnodes.map NodeInfo.id).nodup_iff.2 hids
  have hsorted : metadataNodes (loadConfig (some content')) =
      metadataNodes (loadConfig (some content)) := by
    have hperm : (metadataNodes (loadConfig (some content'))).Perm
        (metadataNodes (loadConfig (some content))) :=
      (metadataNodes_perm _).trans ((hnodes.filter _).trans (metadataNodes_perm _).symm)
    exact hperm.eq_of_pairwise (fun a b _ _ hab hba => absurd hba (not_lt_of_gt hab))
      (metadataNodes_pairwise hids') (metadataNodes_pairwise hids)
  have hmine : getMyNode (loadConfig (some content')) nodeId =
      getMyNode (loadConfig (some content)) nodeId := by
    by_cases hmem : ∃ n ∈ loadConfig (some content), n.id = nodeId
    · rcases hmem with ⟨n, hn, rfl⟩
      rw [getMyNode_of_mem hids hn, getMyNode_of_mem hids' (hnodes.mem_iff.2 hn)]
    · have hnone : ∀ nodes : List NodeInfo, (∀ n ∈ nodes, n ∈ loadConfig (some content)) →
          nodes.find? (fun n => n.id = nodeId) = none := by
        intro nodes hsub
        rw [List.find?_eq_none]
        intro n hn
        simp only [decide_eq_true_eq]
        exact fun heq => hmem ⟨n, hsub n hn, heq⟩
      rw [getMyNode, getMyNode, hnone _ fun n hn => hnodes.mem_iff.1 hn, hnone _ fun n hn => hn]
  simp only [mainMetadataNode, hsorted, hmine]

/-- The processes started for the metadata nodes of one configuration file link them into one path
by increasing id: every process but the last points at the node with the next larger id, exactly
the last starts as the tail, no two share a next node (nor its address, unless two lines of the file
give the same one), and the order of the lines does not matter. -/
theorem metadata_nodes_form_chain (content : Bytes)
    (hids : ((loadConfig (some content)).map NodeInfo.id).Nodup)
    (hports : ∀ n ∈ loadConfig (some content), 1 ≤ n.port ∧ n.port ≤ 65535) :
    ∃ path : List NodeInfo,
      path.Perm ((loadConfig (some content)).filter fun n => 11 ≤ n.id) ∧
      path.Pairwise (fun a b => a.id < b.id) ∧
      path.IsChain (fun a b => Successor path a b ∧
        ∃ node, mainMetadataNode (some content) a.id = some node ∧
          node.nextNodeIp = b.host ∧ node.nextNodePort = b.port) ∧
      (∀ n ∈ path, ∃ node, mainMetadataNode (some content) n.id = some node ∧
        Linked path n node ∧ (Last path n ∨ ∃ m, Successor path n m)) ∧
      (∀ a ∈ path, ∀ b ∈ path, ∀ m, Successor path a m → Successor path b m → a = b) ∧
      (∀ a ∈ path, ∀ b ∈ path, ∀ node node',
        mainMetadataNode (some content) a.id = some node →
        mainMetadataNode (some content) b.id = some node' →
        node.nextNodeIp = node'.nextNodeIp → node.nextNodePort = node'.nextNodePort →
        a = b ∨ ∃ m ∈ path, ∃ m' ∈ path, m ≠ m' ∧ m.host = m'.host ∧ m.port = m'.port) ∧
      ∀ content', (getLines content').Perm (getLines content) →
        ∀ nodeId, mainMetadataNode (some content') nodeId =
          mainMetadataNode (some content) nodeId := by
  set nodes := loadConfig (some content) with hnodes
  have hsorted := metadataNodes_pairwise hids
  have hmem : ∀ n ∈ metadataNodes nodes, n ∈ nodes := by
    intro n hn
    exact List.mem_of_mem_filter ((metadataNodes_perm nodes).mem_iff.1 hn)
  have hport : ∀ n ∈ metadataNodes nodes, 1 ≤ n.port := fun n hn => (hports n (hmem n hn)).1
  have hmain : ∀ n ∈ metadataNodes nodes, ∃ node,
      mainMetadataNode (some content) n.id = some node ∧ Linked (metadataNodes nodes) n node := by
    intro n hn
    have hne : n.port ≠ 0 := by
      have hpos := hport n hn
      omega
    exact ⟨_, mainMetadataNode_of_mem hids (hmem n hn) hne, linked_launch hsorted hport hn⟩
  refine ⟨metadataNodes nodes, metadataNodes_perm nodes, hsorted, ?_, ?_, ?_, ?_, ?_⟩
  · rw [List.isChain_iff_forall_rel_of_append_cons_cons]
    intro a b pre post hpath
    have hsucc := successor_split hpath hsorted
    rcases hmain a (by rw [hpath]; simp) with ⟨node, hnode, hlinked⟩
    exact ⟨hsucc, node, hnode, hlinked.next b hsucc⟩
  · intro n hn
    rcases hmain n hn with ⟨node, hnode, hlinked⟩
    exact ⟨node, hnode, hlinked, last_or_successor hsorted hn⟩
  · exact fun a ha b hb m => Successor.injective hsorted ha hb
  · intro a ha b hb node node' hnode hnode' hip hnext
    rcases hmain a ha with ⟨_, heq, hlinked⟩
    rcases hmain b hb with ⟨_, heq', hlinked'⟩
    cases hnode.symm.trans heq
    cases hnode'.symm.trans heq'
    rcases last_or_successor hsorted ha with hlast | ⟨m, hm⟩
    · -- The end of the chain is no node's address, so the other process is at the end as well.
      have hlast' : Last (metadataNodes nodes) b :=
        hlinked'.end_iff.1 (hnext.symm.trans (hlinked.end_iff.2 hlast))
      have hid : a.id = b.id := le_antisymm (hlast' a ha) (hlast b hb)
      exact Or.inl (by rw [← getMyNode_of_mem hids (hmem a ha), hid,
        getMyNode_of_mem hids (hmem b hb)])
    · rcases last_or_successor hsorted hb with hlast' | ⟨m', hm'⟩
      · have hend := hnext.trans (hlinked'.end_iff.2 hlast')
        exact absurd hm.above (not_lt_of_ge (hlinked.end_iff.1 hend m hm.mem))
      · by_cases hmm : m = m'
        · exact Or.inl (hm.injective hsorted ha hb (hmm ▸ hm'))
        · have haddr := hlinked.next m hm
          have haddr' := hlinked'.next m' hm'
          exact Or.inr ⟨m, hm.mem, m', hm'.mem, hmm, by rw [← haddr.1, hip, haddr'.1],
            by rw [← haddr.2, hnext, haddr'.2]⟩
  · exact fun content' hlines nodeId => mainMetadataNode_perm hids hlines nodeId

/-- A file with its lines out of order, a gap in the ids, a storage node, a comment, a blank line
and a malformed one. -/
def shuffledConfig : Bytes :=
  ascii "# cluster\n 14 10.0.0.4 9004\t\n\n1 10.0.0.9 8001\n11 10.0.0.1 9001\n12 oops\n13 10.0.0.3 9003"

/-- The three metadata nodes of that file form a chain. -/
theorem metadata_nodes_form_chain_shuffled :
    ∃ path : List NodeInfo,
      path.Perm ((loadConfig (some shuffledConfig)).filter fun n => 11 ≤ n.id) ∧
      path.Pairwise (fun a b => a.id < b.id) ∧
      ∀ n ∈ path, ∃ node, mainMetadataNode (some shuffledConfig) n.id = some node ∧
        Linked path n node := by
  rcases metadata_nodes_form_chain shuffledConfig (by decide +kernel) (by decide +kernel) with
    ⟨path, hperm, hsorted, _, hlinked, _⟩
  refine ⟨path, hperm, hsorted, ?_⟩
  intro n hn
  rcases hlinked n hn with ⟨node, hnode, hlink, _⟩
  exact ⟨node, hnode, hlink⟩

end Metadata
end Dfs

import Dfs.Library.TextScan

/-!
# Node configuration

The configuration file of a cluster: one node to a line, as an id, a host and a port.  Blank lines,
comments and lines that do not start with such a triple are skipped.
-/

namespace Dfs
namespace Common

open Bytes TextScan

structure NodeInfo where
  id : Int
  host : Bytes
  port : Int
  deriving DecidableEq

/-- `NodeInfo{}`. -/
def NodeInfo.default : NodeInfo :=
  { id := 0
    host := []
    port := 0 }

/-! ## Lines -/

/-- The lines that `while (std::getline(file, line))` goes through: a newline at the end of the
file does not start another one. -/
def getLines (content : Bytes) : List Bytes :=
  let lines := content.splitOn 10
  if lines.getLast? = some [] then lines.dropLast else lines

/-- The characters that `loadConfig` trims. -/
def isBlank (b : UInt8) : Bool :=
  b == 32 || b == 9

/-- The body of the loop of `loadConfig`: the node that a line adds, if any. -/
def readNode (line : Bytes) : Option NodeInfo :=
  match line.dropWhile isBlank with
  | [] => none
  | b :: rest =>
      if b = 35 then none
      else do
        let line := ((b :: rest).reverse.dropWhile isBlank).reverse
        let (id, s) ← readInt32 line
        let (host, s) ← readWord s
        let (port, _) ← readInt32 s
        some
          { id := id
            host := host
            port := port }

/-- `nodes_` of a `NodeConfig`; `none` is a file that cannot be opened. -/
def loadConfig : Option Bytes → List NodeInfo
  | none => []
  | some content => (getLines content).filterMap readNode

def getMyNode (nodes : List NodeInfo) (myNodeId : Int) : NodeInfo :=
  (nodes.find? fun n => n.id = myNodeId).getD NodeInfo.default

/-- `main` of the storage node program on a configuration file and a node id: the port that the node
is started on, or `none` if the id is not in the file. -/
def mainStorageNode (configFile : Option Bytes) (nodeId : Int) : Option Int :=
  let myNode := getMyNode (loadConfig configFile) nodeId
  if myNode.port = 0 ∧ myNode.host = [] then none else some myNode.port

/-! ## Accepted lines -/

theorem readNode_comment {blanks rest : Bytes} (h : ∀ b ∈ blanks, isBlank b = true) :
    readNode (blanks ++ 35 :: rest) = none := by
  have hhash : isBlank 35 = false := by decide
  have hdrop : (blanks ++ 35 :: rest).dropWhile isBlank = 35 :: rest := by
    rw [List.dropWhile_append_of_pos h, List.dropWhile_cons_of_neg (by simp [hhash])]
  simp [readNode, hdrop]

theorem readNode_blank {blanks : Bytes} (h : ∀ b ∈ blanks, isBlank b = true) :
    readNode blanks = none := by
  have hdrop : blanks.dropWhile isBlank = [] := by
    rw [List.dropWhile_eq_nil_iff]
    exact h
  simp [readNode, hdrop]

theorem isSpace_of_isBlank {b : UInt8} (h : isBlank b = true) : isSpace b = true := by
  simp only [isBlank, Bool.or_eq_true, beq_iff_eq] at h
  rcases h with rfl | rfl
  · decide
  · decide

theorem isBlank_showInt {i : Int} {b : UInt8} (h : b ∈ showInt i) : isBlank b = false := by
  cases hb : isBlank b with
  | false => rfl
  | true =>
      have hsolid := (isWord_showInt i).solid b h
      rw [isSpace_of_isBlank hb] at hsolid
      cases hsolid

/-- A line as a configuration file spells it, between any blanks, is accepted as it reads. -/
theorem readNode_line {before after : Bytes} (n : NodeInfo)
    (hbefore : ∀ b ∈ before, isBlank b = true) (hafter : ∀ b ∈ after, isBlank b = true)
    (hid : -2 ^ 31 ≤ n.id ∧ n.id ≤ 2 ^ 31 - 1) (hhost : IsWord n.host)
    (hport : -2 ^ 31 ≤ n.port ∧ n.port ≤ 2 ^ 31 - 1) :
    readNode (before ++ (showInt n.id ++ 32 :: (n.host ++ 32 :: showInt n.port)) ++ after) =
      some n := by
  obtain ⟨c, text, hid'⟩ := List.exists_cons_of_ne_nil (isWord_showInt n.id).ne_nil
  have hc : isBlank c = false := isBlank_showInt (i := n.id) (by simp [hid'])
  have hc35 : c ≠ 35 := by
    rintro rfl
    -- A number starts with a digit or a sign, never with the comment character.
    cases hn : n.id with
    | ofNat m =>
        have hdigit := isDigit_of_mem_showNat (n := m) (b := 35)
          (by rw [hn] at hid'; simp only [showInt] at hid'; simp [hid'])
        revert hdigit
        decide
    | negSucc m =>
        rw [hn] at hid'
        simp [showInt] at hid'
  set body := showInt n.id ++ 32 :: (n.host ++ 32 :: showInt n.port) with hbody
  have hdrop : (before ++ body ++ after).dropWhile isBlank = body ++ after := by
    rw [List.append_assoc, List.dropWhile_append_of_pos hbefore, hbody, hid']
    exact List.dropWhile_cons_of_neg (by simp [hc])
  have htrim : ((body ++ after).reverse.dropWhile isBlank).reverse = body := by
    have hafter' : ∀ b ∈ after.reverse, isBlank b = true := by
      intro b hb
      exact hafter b (List.mem_reverse.1 hb)
    have hlast : ∃ d, body.reverse = d :: body.reverse.tail ∧ isBlank d = false := by
      obtain ⟨ds, d, hds⟩ := (List.eq_nil_or_concat (showInt n.port)).resolve_left
        (isWord_showInt n.port).ne_nil
      refine ⟨d, ?_, isBlank_showInt (i := n.port) (by simp [hds])⟩
      simp [hbody, hds]
    obtain ⟨d, hd, hdblank⟩ := hlast
    rw [List.reverse_append, List.dropWhile_append_of_pos hafter', hd,
      List.dropWhile_cons_of_neg (by simp [hdblank]), ← hd, List.reverse_reverse]
  have hcons : body ++ after = c :: (text ++ 32 :: (n.host ++ 32 :: showInt n.port) ++ after) := by
    rw [hbody, hid']
    simp
  unfold readNode
  rw [hdrop, hcons]
  simp only [hc35, if_false]
  rw [← hcons, htrim, hbody]
  have hread : readInt32 (showInt n.id ++ 32 :: (n.host ++ 32 :: showInt n.port)) =
      some (n.id, 32 :: (n.host ++ 32 :: showInt n.port)) :=
    readInt_showInt_endsWord hid.1 hid.2 (endsWord_cons (by decide))
  have hport' : readInt32 (showInt n.port) = some (n.port, []) := by
    have h := readInt_showInt_endsWord hport.1 hport.2 endsWord_nil
    rw [List.append_nil] at h
    exact h
  simp [hread, readWord_append_space hhost, hport']

theorem getMyNode_of_mem {nodes : List NodeInfo} (h : (nodes.map NodeInfo.id).Nodup)
    {n : NodeInfo} (hn : n ∈ nodes) : getMyNode nodes n.id = n := by
  have hfind : nodes.find? (fun m => m.id = n.id) = some n := by
    induction nodes with
    | nil => simp at hn
    | cons m nodes ih =>
        rw [List.map_cons, List.nodup_cons] at h
        rcases List.mem_cons.1 hn with rfl | hn
        · simp
        · have hne : m.id ≠ n.id := by
            intro heq
            exact h.1 (heq ▸ List.mem_map_of_mem hn)
          rw [List.find?_cons_of_neg (by simp [hne])]
          exact ih h.2 hn
  rw [getMyNode, hfind]
  rfl

/-! ## Whole files -/

/-- A line of a configuration file as its author means it. -/
inductive ConfigLine where
  | blank (blanks : Bytes)
  | comment (blanks rest : Bytes)
  | node (before : Bytes) (n : NodeInfo) (after : Bytes)

namespace ConfigLine

def text : ConfigLine → Bytes
  | blank blanks => blanks
  | comment blanks rest => blanks ++ 35 :: rest
  | node before n after =>
      before ++ (showInt n.id ++ 32 :: (n.host ++ 32 :: showInt n.port)) ++ after

def entry : ConfigLine → Option NodeInfo
  | blank _ => none
  | comment _ _ => none
  | node _ n _ => some n

/-- What stands before and behind is blank, a comment is on one line, and a node has a word as its
host and numbers that an `int` can hold. -/
def Valid : ConfigLine → Prop
  | blank blanks => ∀ b ∈ blanks, isBlank b = true
  | comment blanks rest => (∀ b ∈ blanks, isBlank b = true) ∧ 10 ∉ rest
  | node before n after => (∀ b ∈ before, isBlank b = true) ∧ (∀ b ∈ after, isBlank b = true) ∧
      (-2 ^ 31 ≤ n.id ∧ n.id ≤ 2 ^ 31 - 1) ∧ IsWord n.host ∧
      (-2 ^ 31 ≤ n.port ∧ n.port ≤ 2 ^ 31 - 1)

instance (line : ConfigLine) : Decidable line.Valid :=
  match line with
  | blank blanks => inferInstanceAs (Decidable (∀ b ∈ blanks, isBlank b = true))
  | comment blanks rest =>
      inferInstanceAs (Decidable ((∀ b ∈ blanks, isBlank b = true) ∧ 10 ∉ rest))
  | node before n after => inferInstanceAs (Decidable
      ((∀ b ∈ before, isBlank b = true) ∧ (∀ b ∈ after, isBlank b = true) ∧
        (-2 ^ 31 ≤ n.id ∧ n.id ≤ 2 ^ 31 - 1) ∧ IsWord n.host ∧
        (-2 ^ 31 ≤ n.port ∧ n.port ≤ 2 ^ 31 - 1)))

theorem readNode_text {line : ConfigLine} (h : line.Valid) : readNode line.text = line.entry := by
  cases line with
  | blank blanks => exact readNode_blank h
  | comment blanks rest => exact readNode_comment h.1
  | node before n after =>
      rcases h with ⟨hbefore, hafter, hid, hhost, hport⟩
      exact readNode_line n hbefore hafter hid hhost hport

theorem newline_not_mem {line : ConfigLine} (h : line.Valid) : 10 ∉ line.text := by
  have hblanks : ∀ {blanks : Bytes}, (∀ b ∈ blanks, isBlank b = true) → 10 ∉ blanks := by
    intro blanks hall hmem
    exact absurd (hall 10 hmem) (by decide)
  have hword : ∀ {w : Bytes}, IsWord w → 10 ∉ w := by
    intro w hw hmem
    exact absurd (hw.solid 10 hmem) (by decide)
  cases line with
  | blank blanks => exact hblanks h
  | comment blanks rest =>
      rcases h with ⟨hbefore, hrest⟩
      simp [text, hblanks hbefore, hrest]
  | node before n after =>
      rcases h with ⟨hbefore, hafter, _, hhost, _⟩
      simp [text, hblanks hbefore, hblanks hafter, hword hhost, hword (isWord_showInt n.id),
        hword (isWord_showInt n.port)]

end ConfigLine

/-- A last line that is empty adds no node, whether it is read or not. -/
theorem filterMap_getLines (content : Bytes) :
    (getLines content).filterMap readNode = (content.splitOn 10).filterMap readNode := by
  have hnone : readNode [] = none := readNode_blank (by simp)
  unfold getLines
  dsimp only
  split
  · rename_i hlast
    rcases List.getLast?_eq_some_iff.1 hlast with ⟨lines, hlines⟩
    simp [hlines, hnone]
  · rfl

theorem flatMap_newline (lines : List Bytes) :
    lines.flatMap (fun line => line ++ [10]) = [10].intercalate (lines ++ [[]]) := by
  induction lines with
  | nil => rfl
  | cons line lines ih =>
      rw [List.flatMap_cons, ih, List.cons_append, List.intercalate_cons_of_ne_nil (by simp)]

theorem entry_host {lines : List ConfigLine} (h : ∀ line ∈ lines, line.Valid) {n : NodeInfo}
    (hn : n ∈ lines.filterMap ConfigLine.entry) : n.host ≠ [] := by
  rcases List.mem_filterMap.1 hn with ⟨line, hline, hentry⟩
  have hvalid := h line hline
  cases line with
  | blank blanks => cases hentry
  | comment blanks rest => cases hentry
  | node before m after =>
      cases hentry
      exact hvalid.2.2.2.1.ne_nil

/-- A configuration file is read as it is meant, with a newline behind its last line or without; and
the process that is started for an id listens on the port of the first entry with this id, and gives
up when there is none. -/
theorem config_round_trip {lines : List ConfigLine} (h : ∀ line ∈ lines, line.Valid)
    {content : Bytes} (hcontent : content = lines.flatMap (fun line => line.text ++ [10]) ∨
      content = [10].intercalate (lines.map ConfigLine.text)) :
    loadConfig (some content) = lines.filterMap ConfigLine.entry ∧
      ∀ nodeId, mainStorageNode (some content) nodeId =
        ((lines.filterMap ConfigLine.entry).find? fun n => n.id = nodeId).map NodeInfo.port := by
  have hread : (lines.map ConfigLine.text).filterMap readNode =
      lines.filterMap ConfigLine.entry := by
    rw [List.filterMap_map]
    exact List.filterMap_congr fun line hline => ConfigLine.readNode_text (h line hline)
  have hnewline : ∀ t ∈ lines.map ConfigLine.text, 10 ∉ t := by
    intro t ht
    rcases List.mem_map.1 ht with ⟨line, hline, rfl⟩
    exact ConfigLine.newline_not_mem (h line hline)
  have hempty : readNode [] = none := readNode_blank (by simp)
  have hload : loadConfig (some content) = lines.filterMap ConfigLine.entry := by
    rw [loadConfig, filterMap_getLines]
    rcases hcontent with rfl | rfl
    · have hfile : lines.flatMap (fun line => line.text ++ [10]) =
          [10].intercalate (lines.map ConfigLine.text ++ [[]]) := by
        rw [← flatMap_newline, List.flatMap_map]
      have hall : ∀ t ∈ lines.map ConfigLine.text ++ [[]], 10 ∉ t := by
        intro t ht
        rcases List.mem_append.1 ht with ht | ht
        · exact hnewline t ht
        · simp [List.mem_singleton.1 ht]
      rw [hfile, List.splitOn_intercalate 10 hall (by simp), List.filterMap_append, hread]
      simp [hempty]
    -- Without lines the file is empty, which `getLines` reads as no line.
    · by_cases hnil : lines = []
      · simp [hnil, hempty]
      · rw [List.splitOn_intercalate 10 hnewline (by simpa using hnil), hread]
  refine ⟨hload, ?_⟩
  intro nodeId
  unfold mainStorageNode getMyNode
  rw [hload]
  cases hfind : (lines.filterMap ConfigLine.entry).find? fun n => n.id = nodeId with
  | none => rfl
  | some n =>
      have hhost := entry_host h (List.mem_of_find?_eq_some hfind)
      simp [hhost]

/-- The file of a cluster with one storage node. -/
def localConfig : List ConfigLine :=
  [.comment [] (ascii " storage"), .node [] ⟨1, ascii "127.0.0.1", 8001⟩ [32]]

theorem config_round_trip_local :
    mainStorageNode (some (ascii "# storage\n1 127.0.0.1 8001 \n")) 1 = some 8001 ∧
      mainStorageNode (some (ascii "# storage\n1 127.0.0.1 8001 \n")) 11 = none := by
  have hvalid : ∀ line ∈ localConfig, line.Valid := by decide +kernel
  have hread := config_round_trip hvalid
    (Or.inl (show ascii "# storage\n1 127.0.0.1 8001 \n" = _ by decide +kernel))
  exact ⟨(hread.2 1).trans (by decide), (hread.2 11).trans (by decide)⟩

end Common
end Dfs

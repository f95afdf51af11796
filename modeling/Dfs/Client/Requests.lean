import Dfs.Client.Client
import Dfs.Network.Exchange
import Dfs.Storage.Linearizable

/-!
# Requests that wait for each other

The routines that wait for a reply, each with the handler loop of the node it talks to.  A storage
node answers every frame or closes, so a routine waits in vain only where the frame that the handler
waits for does not come; a metadata node has commands that it neither answers nor closes on.
-/

set_option linter.dupNamespace false

namespace Dfs
namespace Client

open Bytes TextScan Network Metadata

/-! ## The services -/

/-- `StorageNode::handleClient`. -/
def storageService : Service Storage.StorageNode Storage.Handler where
  start := .top
  reads := fun
    | .reading => true
    | .awaitData _ => true
    | _ => false
  ended := fun
    | .closed => true
    | _ => false
  onFrame := fun node handler frame =>
    match handler with
    | .reading => Storage.Server.afterCommand node frame
    | .awaitData hash => if frame = [] then .closed else .storing hash frame
    | handler => handler
  move := fun node handler =>
    match handler with
    | .top => (none, if node.running then .reading else .closed)
    | .ready hash => (some (ascii "READY"), .awaitData hash)
    | .storing hash data => (none, .ack hash data)
    | .ack _ _ => (some (ascii "ACK"), .top)
    | .lookup hash =>
        match (node.storage hash).getD [] with
        | [] => (none, .notFound hash)
        | data => (none, .found hash data)
    | .found hash data => (some (ascii "FOUND"), .foundData hash data)
    | .foundData _ data => (some data, .top)
    | .notFound _ => (some (ascii "NOT_FOUND"), .top)
    | .error => (some (ascii "ERROR"), .top)
    | .dying => (none, .closed)
    | handler => (none, handler)

/-- Where `MetadataNode::handleClient` is; a forward is taken to return. -/
inductive MetadataHandler where
  /-- in `recvMessage` -/
  | reading
  /-- in `forwardPut` -/
  | forwarding
  /-- about to send a reply -/
  | reply (message : Bytes)
  /-- past `closeClient` -/
  | closed

/-- `MetadataNode::handleClient`, with the node and the result of a forward. -/
def metadataService : Service (MetadataNode × Bool) MetadataHandler where
  start := .reading
  reads := fun
    | .reading => true
    | _ => false
  ended := fun
    | .closed => true
    | _ => false
  onFrame := fun (node, _) handler frame =>
    match handler with
    | .reading =>
        match node.dispatch frame with
        | .close => .closed
        | .put =>
            match MetadataNode.parsePut frame with
            | none => .reply (ascii "ERROR_ARGS")
            | some _ => if node.mustForward then .forwarding else .reply (ascii "ACK")
        | .get filename =>
            if node.servesReads then
              .reply (MetadataNode.lookupMessage (node.metadataStore filename))
            else .reply (ascii "REDIRECT_TO_TAIL")
        | .respond _ message => .reply message
        | .ignore => .reading
        | .die => .closed
    | handler => handler
  move := fun (_, success) handler =>
    match handler with
    | .forwarding => (none, .reply (if success then ascii "ACK" else ascii "ERROR_FORWARD"))
    | .reply message => (some message, .reading)
    | handler => (none, handler)

/-- The handler of a server connection follows the service: what it reads, sends and does next. -/
theorem serve_service {s s' : Storage.Server} {id : Nat} {c : Storage.Endpoint}
    (h : s.serve id c = some s') :
    ∃ c', s'.conns id = some c' ∧
      if storageService.reads c.handler then
        c'.handler = storageService.onFrame s.node c.handler (recvData c.inbound).1 ∧
          c'.inbound = (recvData c.inbound).2 ∧ c'.outbound = c.outbound
      else
        c'.handler = (storageService.move s.node c.handler).2 ∧ c'.inbound = c.inbound ∧
          c'.outbound = c.outbound ++
            if c.connected then ((storageService.move s.node c.handler).1.map sendData).getD []
            else [] := by
  unfold Storage.Server.serve at h
  cases hhandler : c.handler with
  | top =>
      simp only [hhandler, Option.some.injEq] at h
      subst h
      cases hrun : s.node.running
      · exact ⟨c.close, by simp, by simp [storageService, Storage.Endpoint.close, hrun]⟩
      · exact ⟨c.goto .reading, by simp, by simp [storageService, Storage.Endpoint.goto, hrun]⟩
  | reading =>
      simp only [hhandler] at h
      split at h
      · split at h
        · rename_i hafter
          cases h
          refine ⟨c.advance.close, by simp, ?_⟩
          simp [storageService, Storage.Endpoint.close, Storage.Endpoint.advance, hafter]
        · cases h
          refine ⟨_, Function.update_self _ _ _, ?_⟩
          simp [storageService, Storage.Endpoint.advance]
      · cases h
  | awaitData hash =>
      simp only [hhandler] at h
      split at h
      · split at h
        · rename_i hnil
          cases h
          refine ⟨c.advance.close, by simp, ?_⟩
          simp [storageService, Storage.Endpoint.close, Storage.Endpoint.advance, hnil]
        · rename_i hdata
          cases h
          refine ⟨_, Function.update_self _ _ _, ?_⟩
          have hne : (recvData c.inbound).1 ≠ [] := hdata
          simp [storageService, Storage.Endpoint.goto, Storage.Endpoint.advance, hne]
      · cases h
  | lookup hash =>
      simp only [hhandler] at h
      cases hheld : (s.node.storage hash).getD [] with
      | nil =>
          simp only [hheld, Option.some.injEq] at h
          subst h
          refine ⟨_, Function.update_self _ _ _, ?_⟩
          simp [storageService, Storage.Endpoint.goto, hheld]
      | cons b data =>
          simp only [hheld, Option.some.injEq] at h
          subst h
          refine ⟨_, Function.update_self _ _ _, ?_⟩
          simp [storageService, Storage.Endpoint.goto, hheld]
  | storing hash data =>
      simp only [hhandler, Option.some.injEq] at h
      subst h
      refine ⟨_, Function.update_self _ _ _, ?_⟩
      simp [storageService, Storage.Endpoint.goto]
  | dying =>
      simp only [hhandler, Option.some.injEq] at h
      subst h
      refine ⟨c.close, by simp, ?_⟩
      simp [storageService, Storage.Endpoint.close]
  | closed => simp [hhandler] at h
  | _ =>
      -- The handler sends a message.
      simp only [hhandler, Option.some.injEq] at h
      subst h
      refine ⟨_, Function.update_self _ _ _, ?_⟩
      cases hconn : c.connected <;> simp [storageService, Storage.Endpoint.send, hconn]

/-! ## Metadata requests -/

/-- A frame that a metadata node neither answers nor closes on, whatever its state. -/
def silentFrame (frame : Bytes) : Bool :=
  match (MetadataNode.launch [] (-1) 0).dispatch frame with
  | .ignore => true
  | _ => false

/-- Among the frames of the stream there is one that is answered or closed on. -/
def heeded (w : Bytes) : Bool :=
  if _h : frameReady w = true then
    if silentFrame (recvData w).1 then heeded (recvData w).2 else true
  else false
termination_by w.length
decreasing_by exact length_recvData_lt ‹_›

theorem dispatch_ignore {node node' : MetadataNode} {frame : Bytes}
    (h : node.dispatch frame = .ignore) : node'.dispatch frame = .ignore := by
  unfold MetadataNode.dispatch MetadataNode.reconfigure at h ⊢
  by_cases hne : frame = []
  · simp [hne] at h
  · simp only [if_neg hne] at h ⊢
    repeat' split at h
    all_goals simp_all

theorem silentFrame_iff (node : MetadataNode) {frame : Bytes} :
    silentFrame frame = true ↔ node.dispatch frame = .ignore := by
  unfold silentFrame
  constructor
  · intro h
    split at h
    · rename_i hignore
      exact dispatch_ignore hignore
    · cases h
  · intro h
    rw [dispatch_ignore h]

theorem frameReady_of_heeded {w : Bytes} (h : heeded w = true) : frameReady w = true := by
  by_contra hready
  rw [heeded, dif_neg hready] at h
  cases h

/-- A reply is on its way, or the handler is about to send one, or it will be. -/
def Served (e : Exchange MetadataHandler) : Prop :=
  frameReady e.toClient = true ∨
    e.toClient = [] ∧ (e.handler = .reading → heeded e.toServer = true)

/-- The positions of a request whose stream is heeded. -/
inductive RequestPos (line : Bytes) : Exchange MetadataHandler → Prop where
  | opened : RequestPos line (Exchange.opened metadataService (requestConv line))
  | waiting (e : Exchange MetadataHandler) : e.conv = .recv .done → Served e → RequestPos line e
  | done (e : Exchange MetadataHandler) (answer : Bytes) : e.conv = .done answer →
      RequestPos line e

/-- The handler of a request that waits goes on. -/
theorem Served.handle {e e' : Exchange MetadataHandler} {node : MetadataNode × Bool}
    (h : Served e) (hopen : e.closed = false)
    (hstep : e.step metadataService (.handle node) = some e') : Served e' := by
  rcases Exchange.handle_cases hstep with ⟨hreads, hready, rfl⟩ | ⟨hreads, rfl⟩
  · -- A frame is read: if it is silent, a later one is not.
    rcases h with hclient | ⟨hnone, hheeded⟩
    · exact Or.inl hclient
    · refine Or.inr ⟨hnone, ?_⟩
      intro hreading
      have hframe : frameReady e.toServer = true := by simpa [hopen] using hready
      have hhandler : e.handler = .reading := by
        cases hh : e.handler <;> simp [metadataService, hh] at hreads
        rfl
      have hstream := hheeded hhandler
      have hsilent : silentFrame (recvData e.toServer).1 = true := by
        rw [silentFrame_iff node.1]
        simp only [metadataService, hhandler] at hreading
        repeat' split at hreading
        all_goals first | assumption | cases hreading
      rw [heeded, dif_pos hframe, if_pos hsilent] at hstream
      exact hstream
  · rcases h with hclient | ⟨hnone, _⟩
    · exact Or.inl (frameReady_append hclient _).1
    · cases hhandler : e.handler with
      | reading => simp [metadataService, hhandler] at hreads
      | forwarding => exact Or.inr ⟨by simp [metadataService, hnone], by simp [metadataService]⟩
      | reply message =>
          exact Or.inl (by simpa [metadataService, hnone] using frameReady_message message)
      | closed => exact Or.inr ⟨by simp [metadataService, hnone], by simp [metadataService]⟩

theorem RequestPos.step {line : Bytes} (hline : heeded (sendData line) = true)
    {e e' : Exchange MetadataHandler} {l : Exchange.Label (MetadataNode × Bool)}
    (h : RequestPos line e) (hstep : e.step metadataService l = some e') : RequestPos line e' := by
  cases l with
  | request =>
      cases h with
      | opened =>
          simp only [Exchange.step, Exchange.opened, requestConv, Option.some.injEq] at hstep
          subst hstep
          exact .waiting _ rfl (Or.inr ⟨rfl, fun _ => by simpa using hline⟩)
      | waiting e hconv hserved =>
          rcases Exchange.request_done hconv hstep with ⟨answer, hdone⟩
          exact .done e' answer hdone
      | done e answer hconv => simp [Exchange.step, hconv] at hstep
  | handle node =>
      cases h with
      | opened =>
          simp [Exchange.step, Exchange.opened, metadataService, frameReady, Exchange.closed,
            requestConv] at hstep
      | waiting e hconv hserved =>
          have hopen : e.closed = false := by simp [Exchange.closed, hconv]
          have hconv' : e'.conv = .recv .done := by
            rcases Exchange.handle_cases hstep with ⟨_, _, rfl⟩ | ⟨_, rfl⟩ <;> exact hconv
          exact .waiting e' hconv' (hserved.handle hopen hstep)
      | done e answer hconv =>
          refine .done e' answer ?_
          rcases Exchange.handle_cases hstep with ⟨_, _, rfl⟩ | ⟨_, rfl⟩ <;> exact hconv

theorem RequestPos.not_deadlocked {line : Bytes} {e : Exchange MetadataHandler}
    (h : RequestPos line e) : ¬ Exchange.Deadlocked metadataService e := by
  intro hdead
  rcases hdead.client with ⟨next, hnext⟩
  cases h with
  | opened => simp [Exchange.opened, requestConv] at hnext
  | waiting e _ hserved =>
      rcases hserved with hclient | ⟨_, hheeded⟩
      · rw [hdead.toClient] at hclient
        cases hclient
      · -- The handler waits for a frame, and there is one in what it has been sent.
        have hhandler : e.handler = .reading := by
          have hreads := hdead.handler.2
          cases hh : e.handler <;> simp [metadataService, hh] at hreads
          rfl
        have hready := frameReady_of_heeded (hheeded hhandler)
        rw [hdead.toServer] at hready
        cases hready
  | done e answer hconv => simp [hconv] at hnext

/-- Where every frame of the stream is silent, the handler reads them all and waits on. -/
theorem stuck_of_not_heeded {P : Exchange MetadataHandler → Exchange.Label (MetadataNode × Bool) →
      Prop} (hP : ∀ e l, P e l) {init : Exchange MetadataHandler} (w : Bytes) {tr}
    (h : Run (Exchange.step metadataService) P init tr
      { conv := .recv .done, handler := .reading, toServer := w, toClient := [] })
    (hw : heeded w = false) :
    ∃ tr' e', Run (Exchange.step metadataService) P init tr' e' ∧
      Exchange.Deadlocked metadataService e' := by
  induction hlen : w.length using Nat.strong_induction_on generalizing w tr with
  | _ n ih =>
      by_cases hready : frameReady w = true
      · -- The frame is read and ignored, and the rest of the stream is shorter.
        have hsilent : silentFrame (recvData w).1 = true := by
          by_contra hloud
          rw [heeded, dif_pos hready, if_neg hloud] at hw
          cases hw
        have hrest : heeded (recvData w).2 = false := by
          rw [heeded, dif_pos hready, if_pos hsilent] at hw
          exact hw
        have hstep : Exchange.step metadataService
            { conv := .recv .done, handler := .reading, toServer := w, toClient := [] }
            (.handle (MetadataNode.launch [] (-1) 0, true)) =
            some { conv := .recv .done, handler := .reading, toServer := (recvData w).2,
                   toClient := [] } := by
          have hignore := (silentFrame_iff (MetadataNode.launch [] (-1) 0)).1 hsilent
          simp [Exchange.step, metadataService, hready, hignore]
        exact ih _ (hlen ▸ length_recvData_lt hready) _ (h.step (hP _ _) hstep) hrest rfl
      · exact ⟨tr, _, h, ⟨_, rfl⟩, ⟨rfl, rfl⟩, by simpa using hready, rfl⟩

/-- A request to a metadata node is never stuck, exactly if its stream is heeded. -/
theorem request_neverStuck_iff (line : Bytes) :
    Exchange.NeverStuck metadataService (fun _ => True) (requestConv line) ↔
      heeded (sendData line) = true := by
  constructor
  · intro h
    by_contra hheeded
    have hopened := @Run.start _ _ (Exchange.step metadataService)
      (fun _ l => ∀ node, l = .handle node → True)
      (Exchange.opened metadataService (requestConv line))
    -- The line is sent, and from then on the handler reads silent frames.
    have hrun := hopened.next .request
      { conv := .recv .done, handler := .reading, toServer := sendData line, toClient := [] }
      (fun _ _ => trivial) rfl
    rcases stuck_of_not_heeded (fun _ _ _ _ => trivial) _ hrun (by simpa using hheeded) with
      ⟨tr, e, hrun', hdead⟩
    exact h tr e hrun' hdead
  · intro hline tr e hrun
    have hpos : RequestPos line e :=
      Run.state_invariant .opened (fun _ _ _ _ _ h _ hstep => h.step hline hstep) hrun
    exact hpos.not_deadlocked

/-! ## The lines of the requests -/

theorem heeded_of_firstFrame {line : Bytes} (h : silentFrame (firstFrame line) = false) :
    heeded (sendData line) = true := by
  have hready := frameReady_message line
  have hloud : ¬ silentFrame (recvData (sendData line)).1 = true := by
    rw [firstFrame] at h
    simp [h]
  rw [heeded, dif_pos hready, if_neg hloud]

/-- No command that is silent starts with a `P`. -/
theorem silentFrame_put (rest : Bytes) : silentFrame (80 :: rest) = false := by
  have hsolid : isSpace 80 = false := by decide
  have hword : ∃ w s, readWord (80 :: rest) = some (80 :: w, s) := by
    refine ⟨rest.takeWhile fun b => !isSpace b, rest.dropWhile fun b => !isSpace b, ?_⟩
    simp [readWord, skipSpace_solid hsolid, hsolid]
  rcases hword with ⟨w, s, hword⟩
  -- The commands that can be silent start with other letters.
  have hne : ∀ op ∈ [ascii "GET", ascii "UPDATE_PREV", ascii "UPDATE_NEXT", ascii "SET_SKIP"],
      80 :: w ≠ op := by
    intro op hop heq
    have hhead : op.head? = some 80 := by rw [← heq]; rfl
    revert hop
    intro hop
    simp only [List.mem_cons, List.not_mem_nil, or_false] at hop
    rcases hop with rfl | rfl | rfl | rfl <;> revert hhead <;> decide
  by_contra hsilent
  have hignore := (silentFrame_iff (MetadataNode.launch [] (-1) 0)).1
    (by simpa using hsilent)
  simp only [MetadataNode.dispatch, hword, Option.getD_some, List.cons_ne_nil, if_false,
    if_neg (hne (ascii "GET") (by simp)), if_neg (hne (ascii "UPDATE_PREV") (by simp)),
    if_neg (hne (ascii "UPDATE_NEXT") (by simp)), if_neg (hne (ascii "SET_SKIP") (by simp))]
    at hignore
  repeat' split at hignore
  all_goals cases hignore

/-- Every line that starts with a `P` is answered, even if only its first bytes are received. -/
theorem heeded_put (rest : Bytes) : heeded (sendData (80 :: rest)) = true := by
  apply heeded_of_firstFrame
  rw [firstFrame_eq]
  cases (80 :: rest).length % 2 ^ 32 with
  | zero =>
      rw [List.take_zero]
      decide +kernel
  | succ n =>
      rw [List.take_succ_cons]
      exact silentFrame_put _

theorem readWord_eq_none {s : Bytes} : readWord s = none ↔ ∀ b ∈ s, isSpace b = true := by
  simp only [readWord]
  constructor
  · intro h
    split at h
    · rename_i hword
      have hskip : skipSpace s = [] := by
        by_contra hne
        rcases List.exists_cons_of_ne_nil hne with ⟨b, t, hbt⟩
        have hb : isSpace b = false := by
          have hhead := List.head?_dropWhile_not isSpace s
          rw [← skipSpace, hbt] at hhead
          simpa using hhead
        rw [hbt] at hword
        simp [hb] at hword
      exact List.dropWhile_eq_nil_iff.1 hskip
    · cases h
  · intro h
    have hskip : skipSpace s = [] := List.dropWhile_eq_nil_iff.2 h
    simp [hskip]

/-- The request for a name that fits into a frame is heeded exactly if there is more to the name
than whitespace. -/
theorem heeded_getLine {filename : Bytes} (h : (getLine filename).length < 2 ^ 32) :
    heeded (sendData (getLine filename)) = true ↔ ∃ b ∈ filename, isSpace b = false := by
  have hline : getLine filename = ascii "GET" ++ 32 :: filename := rfl
  have hop : readWord (getLine filename) = some (ascii "GET", 32 :: filename) := by
    rw [hline]
    exact readWord_append_space (by decide +kernel)
  have hput : ascii "GET" ≠ ascii "PUT" := by decide
  have hne : getLine filename ≠ [] := by simp [hline]
  have hready := frameReady_message (getLine filename)
  have hframe : recvData (sendData (getLine filename)) = (getLine filename, []) := by
    have hrecv := recvData_message (getLine filename) []
    rw [List.append_nil, List.append_nil, firstFrame_of_lt h, laterBytes_of_lt h] at hrecv
    exact hrecv
  -- The node ignores the line exactly if it finds no name behind `GET`.
  have hsilent : silentFrame (getLine filename) = true ↔ readWord filename = none := by
    rw [silentFrame_iff (MetadataNode.launch [] (-1) 0)]
    simp only [MetadataNode.dispatch, if_neg hne, hop, Option.getD_some, if_neg hput, if_true,
      readWord_space]
    cases readWord filename <;> simp
  have hnil : heeded [] = false := by
    rw [heeded]
    simp [frameReady]
  rw [heeded, dif_pos hready, hframe]
  by_cases hname : readWord filename = none
  · rw [if_pos (hsilent.2 hname), hnil]
    simpa using readWord_eq_none.1 hname
  · rw [if_neg fun hs => hname (hsilent.1 hs)]
    simp only [true_iff]
    by_contra hspace
    refine hname (readWord_eq_none.2 fun b hb => ?_)
    by_contra hb'
    exact hspace ⟨b, hb, by simpa using hb'⟩

/-! ## Storage requests -/

/-- The handler goes on to wait for a data frame. -/
def accepts (frame : Bytes) : Bool :=
  match Storage.Server.afterCommand Storage.StorageNode.launch frame with
  | .ready _ => true
  | _ => false

/-- The data frame of a `STORE` comes: whole, or cut to length by what is left of the line. -/
def DataComes (hash data : Bytes) : Prop :=
  accepts (firstFrame (ascii "STORE " ++ hash)) = true →
    frameReady (laterBytes (ascii "STORE " ++ hash) ++ sendData data) = true

theorem dispatch_phase (node node' : Storage.StorageNode) (frame : Bytes) :
    (node.dispatch frame).2.1 = (node'.dispatch frame).2.1 := by
  unfold Storage.StorageNode.dispatch
  repeat' split
  all_goals simp_all

theorem afterCommand_node (node node' : Storage.StorageNode) (frame : Bytes) :
    Storage.Server.afterCommand node frame = Storage.Server.afterCommand node' frame := by
  unfold Storage.Server.afterCommand
  rw [dispatch_phase node node']

theorem accepts_of_ready {node : Storage.StorageNode} {frame hash : Bytes}
    (h : Storage.Server.afterCommand node frame = .ready hash) : accepts frame = true := by
  rw [accepts, afterCommand_node _ node, h]

section Storage

variable {line : Bytes} {e e' : Exchange Storage.Handler} {node : Storage.StorageNode}

/-- The handler on its way to the first message, with the line before it or read. -/
def Starting (line : Bytes) (e : Exchange Storage.Handler) : Prop :=
  e.toClient = [] ∧
    match e.handler with
    | .top => e.toServer = sendData line
    | .reading => e.toServer = sendData line
    | .ready _ => accepts (firstFrame line) = true ∧ e.toServer = laterBytes line
    | .awaitData _ => False
    | .storing _ _ => False
    | .ack _ _ => False
    | .foundData _ _ => False
    | _ => True

/-- What the handler does on the way to the first message. -/
theorem Starting.handle (h : Starting line e)
    (hstep : e.step storageService (.handle node) = some e') :
    Starting line e' ∨
      ∃ message, message.length < 2 ^ 32 ∧ e'.toClient = sendData message ∧
        ((∃ hash, message = ascii "READY" ∧ e'.handler = .awaitData hash ∧
            accepts (firstFrame line) = true ∧ e'.toServer = laterBytes line) ∨
          (∃ hash data, message = ascii "FOUND" ∧ e'.handler = .foundData hash data) ∨
          (message ≠ ascii "READY" ∧ message ≠ ascii "FOUND")) := by
  rcases h with ⟨hnone, hphase⟩
  rcases Exchange.handle_cases hstep with ⟨hreads, hready, rfl⟩ | ⟨hreads, rfl⟩
  · cases hhandler : e.handler with
    | reading =>
        -- The line is there as a whole, so the handler reads its first frame.
        left
        simp only [hhandler] at hphase
        have hframe := recvData_message line []
        rw [List.append_nil, List.append_nil, ← hphase] at hframe
        refine ⟨hnone, ?_⟩
        simp only [storageService, hframe]
        rcases Storage.Server.afterCommand_cases node (firstFrame line) with
          hafter | ⟨hash, hafter⟩ | ⟨hash, hafter⟩ | hafter | hafter
        · simp [hafter]
        · simp [hafter, accepts_of_ready hafter]
        · simp [hafter]
        · simp [hafter]
        · simp [hafter]
    | awaitData hash => simp [hhandler] at hphase
    | _ => simp [storageService, hhandler] at hreads
  · cases hhandler : e.handler with
    | top =>
        -- The loop test; a stopped node closes.
        left
        simp only [hhandler] at hphase
        refine ⟨by simp [storageService, hnone], ?_⟩
        cases hrun : node.running <;> simp [storageService, hrun, hphase]
    | reading => simp [storageService, hhandler] at hreads
    | ready hash =>
        -- `READY` is the first message.
        right
        simp only [hhandler] at hphase
        refine ⟨ascii "READY", by decide, by simp [storageService, hnone], Or.inl ?_⟩
        exact ⟨hash, rfl, by simp [storageService], hphase⟩
    | lookup hash =>
        left
        cases hheld : (node.storage hash).getD [] <;>
          exact ⟨by simp [storageService, hheld, hnone], by simp [storageService, hheld]⟩
    | found hash data =>
        right
        refine ⟨ascii "FOUND", by decide, by simp [storageService, hnone], Or.inr (Or.inl ?_)⟩
        exact ⟨hash, data, rfl, by simp [storageService]⟩
    | notFound hash =>
        right
        exact ⟨ascii "NOT_FOUND", by decide, by simp [storageService, hnone],
          Or.inr (Or.inr (by decide))⟩
    | error =>
        right
        exact ⟨ascii "ERROR", by decide, by simp [storageService, hnone],
          Or.inr (Or.inr (by decide))⟩
    | dying =>
        left
        exact ⟨by simp [storageService, hnone], by simp [storageService]⟩
    | closed =>
        left
        exact ⟨by simp [storageService, hnone], by simp [storageService]⟩
    | _ => simp [hhandler] at hphase

theorem conv_handle {σ ν : Type} {service : Service ν σ} {e e' : Exchange σ} {node : ν}
    (hstep : e.step service (.handle node) = some e') : e'.conv = e.conv := by
  rcases Exchange.handle_cases hstep with ⟨_, _, rfl⟩ | ⟨_, rfl⟩ <;> rfl

/-- The second message is there, or the handler is on its way to it; it may still have to read a
data frame, from a stream with `Q`. -/
def Promised (Q : Bytes → Prop) (more : Bytes) (e : Exchange Storage.Handler) : Prop :=
  frameReady more = true ∨
    more = [] ∧
      match e.handler with
      | .awaitData _ => Q e.toServer
      | .storing _ _ => True
      | .ack _ _ => True
      | .foundData _ _ => True
      | .closed => True
      | _ => False

theorem Promised.handle {Q : Bytes → Prop} {more : Bytes} (h : Promised Q more e)
    (before : Bytes) (hclient : e.toClient = before ++ more)
    (hstep : e.step storageService (.handle node) = some e') :
    ∃ more', e'.toClient = before ++ more' ∧ Promised Q more' e' := by
  have hsent := frameReady_message
  rcases Exchange.handle_cases hstep with ⟨hreads, _, rfl⟩ | ⟨hreads, rfl⟩
  · -- What is read is the data frame: the handler goes on to store it, or closes.
    refine ⟨more, hclient, ?_⟩
    rcases h with hready | ⟨hnone, hphase⟩
    · exact Or.inl hready
    · refine Or.inr ⟨hnone, ?_⟩
      cases hhandler : e.handler with
      | awaitData hash =>
          cases (recvData e.toServer).1 <;> simp [storageService]
      | reading => simp [hhandler] at hphase
      | _ => simp [storageService, hhandler] at hreads
  · rcases h with hready | ⟨hnone, hphase⟩
    · exact ⟨_, by rw [hclient, List.append_assoc], Or.inl (frameReady_append hready _).1⟩
    · -- The promised message is sent now, or the handler comes closer to it.
      refine ⟨((storageService.move node e.handler).1.map sendData).getD [], ?_, ?_⟩
      · rw [hclient, hnone, List.append_nil]
      cases hhandler : e.handler with
      | awaitData hash => simp [storageService, hhandler] at hreads
      | storing hash data => exact Or.inr ⟨rfl, trivial⟩
      | ack hash data => exact Or.inl (by simpa [storageService] using hsent _)
      | foundData hash data => exact Or.inl (by simpa [storageService] using hsent _)
      | closed => exact Or.inr ⟨rfl, trivial⟩
      | _ => simp [hhandler] at hphase

/-- The first message is there or on its way; if it is the one that the routine goes on after,
the second is as good as there. -/
def Begun (expected : Bytes) (Q : Bytes → Prop) (line : Bytes) (e : Exchange Storage.Handler) :
    Prop :=
  Starting line e ∨
    ∃ message more, message.length < 2 ^ 32 ∧ e.toClient = sendData message ++ more ∧
      (message = expected → Promised Q more e)

theorem Begun.handle {expected : Bytes} {Q : Bytes → Prop}
    (hexpected : expected = ascii "READY" ∧
        (accepts (firstFrame line) = true → Q (laterBytes line)) ∨ expected = ascii "FOUND")
    (h : Begun expected Q line e) (hstep : e.step storageService (.handle node) = some e') :
    Begun expected Q line e' := by
  have hne : ascii "READY" ≠ ascii "FOUND" := by decide
  rcases h with hstart | ⟨message, more, hlength, hclient, hpromised⟩
  · -- Up to the first message.
    rcases hstart.handle hstep with hstart' | ⟨message, hlength, hclient, hmessage⟩
    · exact Or.inl hstart'
    · refine Or.inr ⟨message, [], hlength, by rw [hclient, List.append_nil], ?_⟩
      rintro rfl
      refine Or.inr ⟨rfl, ?_⟩
      rcases hmessage with ⟨hash, heq, hhandler, haccepts, hserver⟩ | ⟨hash, data, heq, hhandler⟩ | hother
      · rcases hexpected with ⟨_, hQ⟩ | hfound
        · rw [hhandler, hserver]
          exact hQ haccepts
        · exact absurd (heq.symm.trans hfound) hne
      · rw [hhandler]
        trivial
      · rcases hexpected with ⟨heq, _⟩ | heq
        · exact absurd heq hother.1
        · exact absurd heq hother.2
  · -- Behind it: only the expected message promises a second one.
    by_cases heq : message = expected
    · rcases (hpromised heq).handle _ hclient hstep with ⟨more', hclient', hpromised'⟩
      exact Or.inr ⟨message, more', hlength, hclient', fun _ => hpromised'⟩
    · rcases Exchange.handle_cases hstep with ⟨_, _, rfl⟩ | ⟨_, rfl⟩
      · exact Or.inr ⟨message, more, hlength, hclient, fun h => absurd h heq⟩
      · refine Or.inr ⟨message,
          more ++ ((storageService.move node e.handler).1.map sendData).getD [], hlength, ?_,
          fun h => absurd h heq⟩
        rw [hclient, List.append_assoc]

/-- The client reads the first message. -/
theorem Begun.read {expected : Bytes} {Q : Bytes → Prop} (h : Begun expected Q line e)
    (hready : frameReady e.toClient = true) :
    (recvData e.toClient).1 = expected → Promised Q (recvData e.toClient).2 e := by
  rcases h with ⟨hnone, _⟩ | ⟨message, more, hlength, hclient, hpromised⟩
  · rw [hnone] at hready
    cases hready
  · have hframe := recvData_message message more
    rw [firstFrame_of_lt hlength, laterBytes_of_lt hlength, List.nil_append] at hframe
    rw [hclient, hframe]
    exact hpromised

theorem Begun.not_deadlocked {expected : Bytes} {Q : Bytes → Prop} (h : Begun expected Q line e) :
    ¬ Exchange.Deadlocked storageService e := by
  intro hdead
  rcases h with ⟨_, hphase⟩ | ⟨message, more, _, hclient, _⟩
  · cases hhandler : e.handler with
    | reading =>
        -- The handler has a whole frame before it.
        simp only [hhandler] at hphase
        have hready := frameReady_message line
        rw [← hphase, hdead.toServer] at hready
        cases hready
    | awaitData hash => simp [hhandler] at hphase
    | _ =>
        have hreads := hdead.handler.2
        simp [storageService, hhandler] at hreads
  · -- The client has the first message before it.
    have hready := hdead.toClient
    rw [hclient, frameReady_sendData] at hready
    cases hready

theorem Promised.not_deadlocked {Q : Bytes → Prop} (hQ : ∀ w, Q w → frameReady w = true)
    (h : Promised Q e.toClient e) : ¬ Exchange.Deadlocked storageService e := by
  intro hdead
  rcases h with hready | ⟨_, hphase⟩
  · rw [hdead.toClient] at hready
    cases hready
  · cases hhandler : e.handler with
    | reading => simp [hhandler] at hphase
    | awaitData hash =>
        simp only [hhandler] at hphase
        have hready := hQ _ hphase
        rw [hdead.toServer] at hready
        cases hready
    | _ =>
        have hreads := hdead.handler.2
        simp [storageService, hhandler] at hreads

/-- Nothing has been sent, and the handler has nothing to do but read. -/
def Untouched (e : Exchange Storage.Handler) : Prop :=
  e.toServer = [] ∧ e.toClient = [] ∧
    (e.handler = .top ∨ e.handler = .reading ∨ e.handler = .closed)

theorem Untouched.handle (h : Untouched e) (hopen : e.closed = false)
    (hstep : e.step storageService (.handle node) = some e') : Untouched e' := by
  rcases h with ⟨hserver, hclient, hhandler⟩
  rcases Exchange.handle_cases hstep with ⟨_, hready, rfl⟩ | ⟨hreads, rfl⟩
  · simp [hserver, frameReady, hopen] at hready
  · refine ⟨hserver, ?_, ?_⟩
    · rcases hhandler with hh | hh | hh <;> simp [storageService, hh, hclient]
    · rcases hhandler with hh | hh | hh
      · cases hrun : node.running <;> simp [storageService, hh, hrun]
      · simp [storageService, hh] at hreads
      · simp [storageService, hh]

/-- The line is sent. -/
theorem Untouched.begun {expected : Bytes} {Q : Bytes → Prop} {next : Conv} (h : Untouched e) :
    Begun expected Q line { e with conv := next, toServer := e.toServer ++ sendData line } := by
  rcases h with ⟨hserver, hclient, hhandler⟩
  refine Or.inl ⟨hclient, ?_⟩
  rcases hhandler with hh | hh | hh <;> simp [hh, hserver]

/-! ### Downloads -/

/-- The positions of `downloadChunkFromNode`. -/
inductive FetchExchange (hash : Bytes) : Exchange Storage.Handler → Prop where
  | opened (e : Exchange Storage.Handler) : e.conv = fetchConv hash → Untouched e →
      FetchExchange hash e
  | first (e : Exchange Storage.Handler) : e.conv = .recv afterFound →
      Begun (ascii "FOUND") (fun _ => False) (ascii "GET " ++ hash) e → FetchExchange hash e
  | second (e : Exchange Storage.Handler) : e.conv = .recv .done →
      Promised (fun _ => False) e.toClient e → FetchExchange hash e
  | done (e : Exchange Storage.Handler) (answer : Bytes) : e.conv = .done answer →
      FetchExchange hash e

theorem FetchExchange.step {hash : Bytes} {l : Exchange.Label Storage.StorageNode}
    (h : FetchExchange hash e) (hstep : e.step storageService l = some e') :
    FetchExchange hash e' := by
  cases l with
  | request =>
      -- The routine goes on.
      cases h with
      | opened hconv hfresh =>
          simp only [Exchange.step, hconv, fetchConv, Option.some.injEq] at hstep
          subst hstep
          exact .first _ rfl hfresh.begun
      | first hconv hbegun =>
          rcases Exchange.request_cases hconv hstep with ⟨hready, rfl⟩ | ⟨_, rfl⟩
          · by_cases hfound : (recvData e.toClient).1 = ascii "FOUND"
            · exact .second _ (by simp [afterFound, hfound]) (hbegun.read hready hfound)
            · exact .done _ [] (by simp [afterFound, hfound])
          · have hfound : ([] : Bytes) ≠ ascii "FOUND" := by decide
            exact .done _ [] (by simp [afterFound, hfound])
      | second hconv hpromised =>
          rcases Exchange.request_done hconv hstep with ⟨answer, hdone⟩
          exact .done _ answer hdone
      | done answer hconv => simp [Exchange.step, hconv] at hstep
  | handle node =>
      -- The handler goes on, and the routine is where it was.
      have hconv' := conv_handle hstep
      cases h with
      | opened hconv hfresh =>
          have hopen : e.closed = false := by simp [Exchange.closed, hconv, fetchConv]
          exact .opened _ (hconv'.trans hconv) (hfresh.handle hopen hstep)
      | first hconv hbegun =>
          exact .first _ (hconv'.trans hconv) (hbegun.handle (Or.inr rfl) hstep)
      | second hconv hpromised =>
          rcases hpromised.handle [] rfl hstep with ⟨more, hclient, hpromised'⟩
          rw [List.nil_append] at hclient
          exact .second _ (hconv'.trans hconv) (hclient ▸ hpromised')
      | done answer hconv => exact .done _ answer (hconv'.trans hconv)

/-- The request for a chunk is always answered or closed on. -/
theorem fetch_neverStuck (hash : Bytes) (P : Storage.StorageNode → Prop) :
    Exchange.NeverStuck storageService P (fetchConv hash) := by
  intro tr e hrun
  have hstart : Untouched (Exchange.opened storageService (fetchConv hash)) :=
    ⟨rfl, rfl, Or.inl rfl⟩
  have hpos : FetchExchange hash e :=
    Run.state_invariant (.opened _ rfl hstart) (fun _ _ _ _ _ h _ hstep => h.step hstep) hrun
  cases hpos with
  | opened hconv _ =>
      intro hdead
      rcases hdead.client with ⟨next, hnext⟩
      simp [hconv, fetchConv] at hnext
  | first _ hbegun => exact hbegun.not_deadlocked
  | second _ hpromised => exact hpromised.not_deadlocked fun _ h => h.elim
  | done answer hconv =>
      intro hdead
      rcases hdead.client with ⟨next, hnext⟩
      simp [hconv] at hnext

/-! ### Uploads -/

/-- The positions of `uploadChunkToNode`. -/
inductive StoreExchange (hash data : Bytes) : Exchange Storage.Handler → Prop where
  | opened (e : Exchange Storage.Handler) : e.conv = storeConv hash data → Untouched e →
      StoreExchange hash data e
  | first (e : Exchange Storage.Handler) : e.conv = .recv (afterReady data) →
      Begun (ascii "READY") (fun w => frameReady (w ++ sendData data) = true)
        (ascii "STORE " ++ hash) e → StoreExchange hash data e
  | data (e : Exchange Storage.Handler) : e.conv = .send data (.recv .done) →
      Promised (fun w => frameReady (w ++ sendData data) = true) e.toClient e →
      StoreExchange hash data e
  | second (e : Exchange Storage.Handler) : e.conv = .recv .done →
      Promised (fun w => frameReady w = true) e.toClient e → StoreExchange hash data e
  | done (e : Exchange Storage.Handler) (answer : Bytes) : e.conv = .done answer →
      StoreExchange hash data e

theorem StoreExchange.step {hash data : Bytes} (hdata : DataComes hash data)
    {l : Exchange.Label Storage.StorageNode} (h : StoreExchange hash data e)
    (hstep : e.step storageService l = some e') : StoreExchange hash data e' := by
  cases l with
  | request =>
      cases h with
      | opened hconv hfresh =>
          simp only [Exchange.step, hconv, storeConv, Option.some.injEq] at hstep
          subst hstep
          exact .first _ rfl hfresh.begun
      | first hconv hbegun =>
          rcases Exchange.request_cases hconv hstep with ⟨hready, rfl⟩ | ⟨_, rfl⟩
          · by_cases hread : (recvData e.toClient).1 = ascii "READY"
            · exact .data _ (by simp [afterReady, hread]) (hbegun.read hready hread)
            · exact .done _ [] (by simp [afterReady, hread])
          · have hread : ([] : Bytes) ≠ ascii "READY" := by decide
            exact .done _ [] (by simp [afterReady, hread])
      | data hconv hpromised =>
          simp only [Exchange.step, hconv, Option.some.injEq] at hstep
          subst hstep
          -- The handler that waits for the data frame has it before it now.
          refine .second _ rfl ?_
          rcases hpromised with hready | ⟨hnone, hphase⟩
          · exact Or.inl hready
          · refine Or.inr ⟨hnone, ?_⟩
            cases hhandler : e.handler <;> simp [hhandler] at hphase ⊢
            exact hphase
      | second hconv hpromised =>
          rcases Exchange.request_done hconv hstep with ⟨answer, hdone⟩
          exact .done _ answer hdone
      | done answer hconv => simp [Exchange.step, hconv] at hstep
  | handle node =>
      have hconv' := conv_handle hstep
      cases h with
      | opened hconv hfresh =>
          have hopen : e.closed = false := by simp [Exchange.closed, hconv, storeConv]
          exact .opened _ (hconv'.trans hconv) (hfresh.handle hopen hstep)
      | first hconv hbegun =>
          exact .first _ (hconv'.trans hconv) (hbegun.handle (Or.inl ⟨rfl, hdata⟩) hstep)
      | data hconv hpromised =>
          rcases hpromised.handle [] rfl hstep with ⟨more, hclient, hpromised'⟩
          rw [List.nil_append] at hclient
          exact .data _ (hconv'.trans hconv) (hclient ▸ hpromised')
      | second hconv hpromised =>
          rcases hpromised.handle [] rfl hstep with ⟨more, hclient, hpromised'⟩
          rw [List.nil_append] at hclient
          exact .second _ (hconv'.trans hconv) (hclient ▸ hpromised')
      | done answer hconv => exact .done _ answer (hconv'.trans hconv)

/-- The handler has read the line and waits for the data frame, of which too little comes. -/
theorem stuck_of_short_data {hash data : Bytes} (h : ¬ DataComes hash data) :
    ∃ tr e, Run (Exchange.step storageService)
      (fun _ l => ∀ node, l = .handle node → node.running = true)
      (Exchange.opened storageService (storeConv hash data)) tr e ∧
      Exchange.Deadlocked storageService e := by
  rw [DataComes, Classical.not_imp] at h
  rcases h with ⟨haccepts, hshort⟩
  have hafter : ∃ hash', Storage.Server.afterCommand Storage.StorageNode.launch
      (firstFrame (ascii "STORE " ++ hash)) = .ready hash' := by
    unfold accepts at haccepts
    split at haccepts
    · rename_i hash' heq
      exact ⟨hash', heq⟩
    · cases haccepts
  rcases hafter with ⟨hash', hafter⟩
  generalize hline : ascii "STORE " ++ hash = line at hafter hshort
  have hready := frameReady_message line
  have hframe := recvData_message line []
  rw [List.append_nil, List.append_nil] at hframe
  have hrunning : ∀ node, Exchange.Label.handle Storage.StorageNode.launch = .handle node →
      node.running = true := by
    rintro node ⟨⟩
    rfl
  have hgot : frameReady (sendData (ascii "READY")) = true ∧
      recvData (sendData (ascii "READY")) = (ascii "READY", []) := by decide
  have hopened := @Run.start _ _ (Exchange.step storageService)
    (fun _ l => ∀ node, l = .handle node → node.running = true)
    (Exchange.opened storageService (storeConv hash data))
  -- The line is sent and read, `READY` comes back, and the data frame follows.
  have hsend := hopened.next .request ⟨.recv (afterReady data), .top, sendData line, []⟩ (by simp)
    (by simp [Exchange.step, Exchange.opened, storeConv, storageService, hline])
  have hloop := hsend.next (.handle Storage.StorageNode.launch)
    ⟨.recv (afterReady data), .reading, sendData line, []⟩ hrunning
    (by simp [Exchange.step, storageService, Storage.StorageNode.launch])
  have hcommand := hloop.next (.handle Storage.StorageNode.launch)
    ⟨.recv (afterReady data), .ready hash', laterBytes line, []⟩ hrunning
    (by simp [Exchange.step, storageService, hready, hframe, hafter])
  have hreply := hcommand.next (.handle Storage.StorageNode.launch)
    ⟨.recv (afterReady data), .awaitData hash', laterBytes line, sendData (ascii "READY")⟩
    hrunning (by simp [Exchange.step, storageService])
  have hread := hreply.next .request
    ⟨.send data (.recv .done), .awaitData hash', laterBytes line, []⟩ (by simp)
    (by simp [Exchange.step, afterReady, hgot])
  have hdata := hread.next .request
    ⟨.recv .done, .awaitData hash', laterBytes line ++ sendData data, []⟩ (by simp) rfl
  exact ⟨_, _, hdata, ⟨_, rfl⟩, ⟨rfl, rfl⟩, by simpa using hshort, rfl⟩

/-- The upload of a chunk is never stuck, exactly if its data frame comes. -/
theorem store_neverStuck_iff (hash data : Bytes) :
    Exchange.NeverStuck storageService (fun node => node.running = true) (storeConv hash data) ↔
      DataComes hash data := by
  constructor
  · intro h
    by_contra hdata
    rcases stuck_of_short_data hdata with ⟨tr, e, hrun, hdead⟩
    exact h tr e hrun hdead
  · intro hdata tr e hrun
    have hstart : Untouched (Exchange.opened storageService (storeConv hash data)) :=
      ⟨rfl, rfl, Or.inl rfl⟩
    have hpos : StoreExchange hash data e :=
      Run.state_invariant (.opened _ rfl hstart) (fun _ _ _ _ _ h _ hstep => h.step hdata hstep)
        hrun
    cases hpos with
    | opened hconv _ =>
        intro hdead
        rcases hdead.client with ⟨next, hnext⟩
        simp [hconv, storeConv] at hnext
    | first _ hbegun => exact hbegun.not_deadlocked
    | data hconv _ =>
        intro hdead
        rcases hdead.client with ⟨next, hnext⟩
        simp [hconv] at hnext
    | second _ hpromised => exact hpromised.not_deadlocked fun _ h => h
    | done answer hconv =>
        intro hdead
        rcases hdead.client with ⟨next, hnext⟩
        simp [hconv] at hnext

theorem dataComes_of_lt {hash data : Bytes} (h : (ascii "STORE " ++ hash).length < 2 ^ 32) :
    DataComes hash data := by
  intro _
  have hready := frameReady_message data
  rwa [laterBytes_of_lt h, List.nil_append]

end Storage

/-! ## All routines -/

/-- Of the routines that wait for a reply, the look-up of a name is never stuck exactly if one of
the frames that its line arrives as is not ignored, for a line that fits into a frame exactly if the
name is not blank; the upload of a chunk exactly if its data frame comes, which it does if the hash
fits into a frame; and the others are never stuck. -/
theorem requests_never_stuck_iff (record : FileMetadata) (filename hash data command : Bytes)
    (node : MetadataNode) :
    Exchange.NeverStuck metadataService (fun _ => True) (requestConv (putLine record)) ∧
    ((Exchange.NeverStuck metadataService (fun _ => True) (requestConv (getLine filename)) ↔
        heeded (sendData (getLine filename)) = true) ∧
      ((getLine filename).length < 2 ^ 32 →
        (Exchange.NeverStuck metadataService (fun _ => True) (requestConv (getLine filename)) ↔
          ∃ b ∈ filename, isSpace b = false))) ∧
    ((Exchange.NeverStuck storageService (fun node => node.running = true)
          (storeConv hash data) ↔ DataComes hash data) ∧
      ((ascii "STORE " ++ hash).length < 2 ^ 32 →
        Exchange.NeverStuck storageService (fun node => node.running = true)
          (storeConv hash data))) ∧
    Exchange.NeverStuck storageService (fun node => node.running = true) (fetchConv hash) ∧
    Exchange.NeverStuck metadataService (fun _ => True) (requestConv (ascii "PING")) ∧
    (command.length < 2 ^ 32 → node.dispatch command = .put →
      Exchange.NeverStuck metadataService (fun _ => True) (requestConv command)) := by
  refine ⟨?_, ?_, ?_, fetch_neverStuck hash _, ?_, ?_⟩
  · exact (request_neverStuck_iff _).2 (heeded_put _)
  · refine ⟨request_neverStuck_iff _, fun hlength => ?_⟩
    rw [request_neverStuck_iff, heeded_getLine hlength]
  · refine ⟨store_neverStuck_iff hash data, fun hlength => ?_⟩
    exact (store_neverStuck_iff hash data).2 (dataComes_of_lt hlength)
  · exact (request_neverStuck_iff _).2 (heeded_put _)
  · intro hlength hput
    refine (request_neverStuck_iff _).2 (heeded_of_firstFrame ?_)
    rw [firstFrame_of_lt hlength]
    by_contra hsilent
    have hignore := (silentFrame_iff node).1 (by simpa using hsilent)
    rw [hput] at hignore
    cases hignore

/-- A look-up of `a`, the upload of a chunk, and a forward. -/
theorem requests_never_stuck_a :
    Exchange.NeverStuck metadataService (fun _ => True) (requestConv (getLine (ascii "a"))) ∧
      Exchange.NeverStuck storageService (fun node => node.running = true)
        (storeConv (ascii "h") [1, 2, 3]) ∧
      Exchange.NeverStuck metadataService (fun _ => True) (requestConv (ascii "PUT a")) := by
  have h := requests_never_stuck_iff ⟨ascii "a", ascii "r", 0, 0, 0, []⟩ (ascii "a") (ascii "h")
    [1, 2, 3] (ascii "PUT a") (MetadataNode.launch [] (-1) 0)
  exact ⟨(h.2.1.2 (by decide)).2 ⟨97, by decide, by decide⟩, h.2.2.1.2 (by decide),
    h.2.2.2.2.2 (by decide) (MetadataNode.dispatch_eq_put.2 ⟨[32, 97], by decide +kernel⟩)⟩

/-- The look-up of the empty name: the node ignores the command, and both sides wait. -/
theorem empty_name_deadlocks :
    (∃ tr, Run (Exchange.step metadataService) (fun _ l => ∀ node, l = .handle node → True)
      (Exchange.opened metadataService (requestConv (getLine []))) tr
      { conv := .recv .done, handler := .reading, toServer := [], toClient := [] }) ∧
    Exchange.Deadlocked metadataService
      { conv := .recv .done, handler := .reading, toServer := [], toClient := [] } ∧
    ¬ Exchange.NeverStuck metadataService (fun _ => True) (requestConv (getLine [])) := by
  have hdead : Exchange.Deadlocked metadataService
      { conv := .recv .done, handler := .reading, toServer := [], toClient := [] } :=
    ⟨⟨_, rfl⟩, ⟨rfl, rfl⟩, rfl, rfl⟩
  have hopened := @Run.start _ _ (Exchange.step metadataService)
    (fun _ l => ∀ node, l = .handle node → True)
    (Exchange.opened metadataService (requestConv (getLine [])))
  have hsend := hopened.next .request ⟨.recv .done, .reading, sendData (getLine []), []⟩
    (fun _ _ => trivial) rfl
  have hignore : (MetadataNode.launch [] (-1) 0).dispatch (recvData (sendData (getLine []))).1 =
      .ignore :=
    (silentFrame_iff _).1 (by decide +kernel)
  have hread := hsend.next (.handle (MetadataNode.launch [] (-1) 0, true))
    ⟨.recv .done, .reading, [], []⟩ (fun _ _ => trivial)
    (by
      have hready : frameReady (sendData (getLine [])) = true := by decide
      have hrest : (recvData (sendData (getLine []))).2 = [] := by decide
      simp [Exchange.step, metadataService, hready, hrest, hignore])
  exact ⟨⟨_, hread⟩, hdead, fun h => h _ _ hread hdead⟩

end Client
end Dfs

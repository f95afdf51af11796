import Dfs.Library.Transition
import Dfs.Network.Tcp

/-!
# Exchanges

One client routine and the handler of its connection, over a connection that loses nothing, with
both processes up.  A `Service` is what a handler loop does, step by step; the state of its node,
which other handlers change in between, is a parameter of each step.
-/

namespace Dfs
namespace Network

/-! ## Frames on the way -/

theorem frameReady_append {w : Bytes} (h : frameReady w = true) (rest : Bytes) :
    frameReady (w ++ rest) = true ∧
      recvData (w ++ rest) = ((recvData w).1, (recvData w).2 ++ rest) := by
  match w with
  | [] => cases h
  | [_] => cases h
  | [_, _] => cases h
  | [_, _, _] => cases h
  | b₀ :: b₁ :: b₂ :: b₃ :: w =>
      simp only [frameReady, decide_eq_true_eq] at h
      have hlong : ((b₀.toNat * 256 + b₁.toNat) * 256 + b₂.toNat) * 256 + b₃.toNat ≤
          (w ++ rest).length := by
        rw [List.length_append]
        exact Nat.le_add_right_of_le h
      refine ⟨by simpa [frameReady] using hlong, ?_⟩
      simp only [List.cons_append, recvData, if_pos h, if_pos hlong,
        List.take_append_of_le_length h, List.drop_append_of_le_length h]

/-- Whatever its length, a message that has been sent can be received, if only in part. -/
theorem frameReady_sendData (message rest : Bytes) :
    frameReady (sendData message ++ rest) = true := by
  have hl : message.length % 2 ^ 32 < 2 ^ 32 := Nat.mod_lt _ (by norm_num)
  have hle : message.length % 2 ^ 32 ≤ (message ++ rest).length := by
    rw [List.length_append]
    exact Nat.le_add_right_of_le (Nat.mod_le _ _)
  unfold sendData len32
  generalize message.length % 2 ^ 32 = l at hl hle ⊢
  have hdigits : (((UInt8.ofNat (l / 2 ^ 24)).toNat * 256 + (UInt8.ofNat (l / 2 ^ 16)).toNat) * 256 +
      (UInt8.ofNat (l / 2 ^ 8)).toNat) * 256 + (UInt8.ofNat l).toNat = l := by
    simp only [UInt8.toNat_ofNat']
    omega
  simp only [List.cons_append, List.nil_append, frameReady, hdigits, decide_eq_true_eq]
  exact hle

theorem frameReady_message (message : Bytes) : frameReady (sendData message) = true := by
  simpa using frameReady_sendData message []

theorem recvData_message (message rest : Bytes) :
    recvData (sendData message ++ rest) = (firstFrame message, laterBytes message ++ rest) := by
  rw [(frameReady_append (frameReady_message message) rest).2]
  rfl

/-- A frame that has been received is shorter than what held it. -/
theorem length_recvData_lt {w : Bytes} (h : frameReady w = true) :
    (recvData w).2.length < w.length := by
  match w with
  | [] => cases h
  | [_] => cases h
  | [_, _] => cases h
  | [_, _, _] => cases h
  | b₀ :: b₁ :: b₂ :: b₃ :: w =>
      simp only [frameReady, decide_eq_true_eq] at h
      simp only [recvData, if_pos h, List.length_drop, List.length_cons]
      omega

/-! ## Services and exchanges -/

/-- The handler loop of a kind of node: `ν` is the state of the node, `σ` where the handler is. -/
structure Service (ν σ : Type) where
  start : σ
  /-- in `recvMessage` or `recvData` -/
  reads : σ → Bool
  /-- past `closeClient` -/
  ended : σ → Bool
  /-- where a frame takes the handler that reads it -/
  onFrame : ν → σ → Bytes → σ
  /-- the next step of a handler that does not read: the message it sends, if any -/
  move : ν → σ → Option Bytes × σ

structure Exchange (σ : Type) where
  conv : Conv
  handler : σ
  /-- on the way to the handler -/
  toServer : Bytes
  /-- on the way to the client -/
  toClient : Bytes

namespace Exchange

variable {ν σ : Type}

inductive Label (ν : Type) where
  /-- the client goes on -/
  | request
  /-- the handler goes on, at a node in this state -/
  | handle (node : ν)

def opened (service : Service ν σ) (conv : Conv) : Exchange σ :=
  { conv := conv
    handler := service.start
    toServer := []
    toClient := [] }

/-- The client closes its connection when its routine is done. -/
def closed (e : Exchange σ) : Bool :=
  match e.conv with
  | .done _ => true
  | _ => false

/-- A reader goes on with a frame, or with an empty one when the other side has closed. -/
def step (service : Service ν σ) (e : Exchange σ) : Label ν → Option (Exchange σ)
  | .request =>
      match e.conv with
      | .done _ => none
      | .send message next =>
          some { e with
            conv := next
            toServer := e.toServer ++ sendData message }
      | .recv next =>
          if frameReady e.toClient then
            some { e with
              conv := next (recvData e.toClient).1
              toClient := (recvData e.toClient).2 }
          else if service.ended e.handler then some { e with conv := next [] }
          else none
  | .handle node =>
      if service.ended e.handler then none
      else if service.reads e.handler then
        if frameReady e.toServer || e.closed then
          some { e with
            handler := service.onFrame node e.handler (recvData e.toServer).1
            toServer := (recvData e.toServer).2 }
        else none
      else
        some { e with
          handler := (service.move node e.handler).2
          toClient := e.toClient ++ ((service.move node e.handler).1.map sendData).getD [] }

/-- What a step of the handler makes of the exchange. -/
theorem handle_cases {service : Service ν σ} {e e' : Exchange σ} {node : ν}
    (h : step service e (.handle node) = some e') :
    service.reads e.handler = true ∧ (frameReady e.toServer = true ∨ e.closed = true) ∧
        e' = { e with
          handler := service.onFrame node e.handler (recvData e.toServer).1
          toServer := (recvData e.toServer).2 } ∨
      service.reads e.handler = false ∧
        e' = { e with
          handler := (service.move node e.handler).2
          toClient := e.toClient ++ ((service.move node e.handler).1.map sendData).getD [] } := by
  simp only [step] at h
  split at h
  · cases h
  · split at h
    · rename_i hreads
      split at h
      · rename_i hready
        cases h
        exact Or.inl ⟨hreads, by simpa using hready, rfl⟩
      · cases h
    · rename_i hreads
      cases h
      exact Or.inr ⟨by simpa using hreads, rfl⟩

/-- What the client makes of the exchange when it reads. -/
theorem request_cases {service : Service ν σ} {e e' : Exchange σ} {next : Bytes → Conv}
    (hconv : e.conv = .recv next) (h : step service e .request = some e') :
    frameReady e.toClient = true ∧
        e' = { e with
          conv := next (recvData e.toClient).1
          toClient := (recvData e.toClient).2 } ∨
      service.ended e.handler = true ∧ e' = { e with conv := next [] } := by
  simp only [step, hconv] at h
  split at h
  · rename_i hready
    cases h
    exact Or.inl ⟨hready, rfl⟩
  · split at h
    · rename_i hended
      cases h
      exact Or.inr ⟨hended, rfl⟩
    · cases h

/-- The last frame that the client reads is its answer. -/
theorem request_done {service : Service ν σ} {e e' : Exchange σ} (hconv : e.conv = .recv .done)
    (h : step service e .request = some e') : ∃ answer, e'.conv = .done answer := by
  rcases request_cases hconv h with ⟨_, rfl⟩ | ⟨_, rfl⟩
  · exact ⟨_, rfl⟩
  · exact ⟨[], rfl⟩

/-- Both sides wait for a frame, and none is on its way to either. -/
structure Deadlocked (service : Service ν σ) (e : Exchange σ) : Prop where
  client : ∃ next, e.conv = .recv next
  handler : service.ended e.handler = false ∧ service.reads e.handler = true
  toServer : frameReady e.toServer = false
  toClient : frameReady e.toClient = false

/-- However the node changes meanwhile, within `P`, the routine and its handler never wait for each
other. -/
def NeverStuck (service : Service ν σ) (P : ν → Prop) (conv : Conv) : Prop :=
  ∀ tr e, Run (step service) (fun _ l => ∀ node, l = .handle node → P node)
    (opened service conv) tr e → ¬ Deadlocked service e

end Exchange

end Network
end Dfs

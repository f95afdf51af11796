import Dfs.Library.Bytes

/-!
# Frames and conversations

`TCPClient` and `TCPServer` put the length of a message in front of it as a big-endian `uint32_t`
and read it back the same way.  The length is cast to 32 bits, so a message of `2 ^ 32` bytes or
more arrives as a shorter frame, with the remaining bytes behind it as further frames.

A `Conv` is what a client routine does on the one connection it opens.
-/

namespace Dfs
namespace Network

/-- The four bytes of `htonl(static_cast<uint32_t>(len))`. -/
def len32 (len : Nat) : Bytes :=
  let l := len % 2 ^ 32
  [UInt8.ofNat (l / 2 ^ 24), UInt8.ofNat (l / 2 ^ 16), UInt8.ofNat (l / 2 ^ 8), UInt8.ofNat l]

/-- What `sendData` and `sendMessage` put on the connection. -/
def sendData (data : Bytes) : Bytes :=
  len32 data.length ++ data

/-- `recvData` on the bytes a connection still delivers: the frame, empty on any failure, and the
bytes after it. -/
def recvData : Bytes → Bytes × Bytes
  | b₀ :: b₁ :: b₂ :: b₃ :: rest =>
      let len := ((b₀.toNat * 256 + b₁.toNat) * 256 + b₂.toNat) * 256 + b₃.toNat
      if len ≤ rest.length then (rest.take len, rest.drop len) else ([], [])
  | _ => ([], [])

/-- The four bytes of a length are read as this length, and then as many bytes if they are there. -/
theorem recvData_len32 (len : Nat) (rest : Bytes) :
    recvData (len32 len ++ rest) =
      if len % 2 ^ 32 ≤ rest.length then (rest.take (len % 2 ^ 32), rest.drop (len % 2 ^ 32))
      else ([], []) := by
  have hl : len % 2 ^ 32 < 2 ^ 32 := Nat.mod_lt _ (by norm_num)
  unfold len32
  generalize len % 2 ^ 32 = l at hl ⊢
  -- The four bytes are the base-256 digits of the length.
  have hdigits : (((UInt8.ofNat (l / 2 ^ 24)).toNat * 256 + (UInt8.ofNat (l / 2 ^ 16)).toNat) * 256 +
      (UInt8.ofNat (l / 2 ^ 8)).toNat) * 256 + (UInt8.ofNat l).toNat = l := by
    simp only [UInt8.toNat_ofNat']
    omega
  simp only [List.cons_append, List.nil_append, recvData, hdigits]

theorem recvData_sendData (data rest : Bytes) :
    recvData (sendData data ++ rest) =
      ((data ++ rest).take (data.length % 2 ^ 32), (data ++ rest).drop (data.length % 2 ^ 32)) := by
  have hlen : data.length % 2 ^ 32 ≤ (data ++ rest).length := by
    rw [List.length_append]
    have := Nat.mod_le data.length (2 ^ 32)
    omega
  rw [sendData, List.append_assoc, recvData_len32, if_pos hlen]

/-- A stream that ends before the first frame is complete gives nothing. -/
theorem recvData_truncated {data rest : Bytes} {p : Nat} (hdata : data.length < 2 ^ 32)
    (hp : p < 4 + data.length) : recvData ((sendData data ++ rest).take p) = ([], []) := by
  have hlen : (len32 data.length).length = 4 := rfl
  by_cases hheader : p < 4
  · have hshort : ((sendData data ++ rest).take p).length < 4 := by
      rw [List.length_take]
      omega
    generalize (sendData data ++ rest).take p = w at hshort ⊢
    match w with
    | [] => rfl
    | [_] => rfl
    | [_, _] => rfl
    | [_, _, _] => rfl
    | _ :: _ :: _ :: _ :: w =>
        simp only [List.length_cons] at hshort
        omega
  · have htake : (sendData data ++ rest).take p =
        len32 data.length ++ (data ++ rest).take (p - 4) := by
      rw [sendData, List.append_assoc, List.take_append, hlen,
        List.take_of_length_le (by omega)]
    rw [htake, recvData_len32, Nat.mod_eq_of_lt hdata, if_neg]
    rw [List.length_take]
    omega

/-- A whole frame is there to be read. -/
def frameReady : Bytes → Bool
  | b₀ :: b₁ :: b₂ :: b₃ :: rest =>
      ((b₀.toNat * 256 + b₁.toNat) * 256 + b₂.toNat) * 256 + b₃.toNat ≤ rest.length
  | _ => false

/-- A frame that has been received was sent as it stands. -/
theorem sendData_recvData {w : Bytes} (h : (recvData w).1 ≠ []) :
    w = sendData (recvData w).1 ++ (recvData w).2 ∧ (recvData w).1.length < 2 ^ 32 := by
  match w with
  | [] => exact absurd rfl h
  | [_] => exact absurd rfl h
  | [_, _] => exact absurd rfl h
  | [_, _, _] => exact absurd rfl h
  | b₀ :: b₁ :: b₂ :: b₃ :: rest =>
      simp only [recvData] at h ⊢
      have h₀ := b₀.toNat_lt
      have h₁ := b₁.toNat_lt
      have h₂ := b₂.toNat_lt
      have h₃ := b₃.toNat_lt
      generalize hlen : ((b₀.toNat * 256 + b₁.toNat) * 256 + b₂.toNat) * 256 + b₃.toNat = len
        at h ⊢
      split at h
      · rename_i hle
        rw [if_pos hle]
        have htake : (rest.take len).length = len := List.length_take_of_le hle
        have hlt : len < 2 ^ 32 := by omega
        -- The digits of the length are the bytes of the header.
        have hheader : len32 len = [b₀, b₁, b₂, b₃] := by
          simp only [len32, Nat.mod_eq_of_lt hlt, List.cons.injEq, and_true, ← UInt8.toNat_inj,
            UInt8.toNat_ofNat']
          omega
        refine ⟨?_, by rw [htake]; exact hlt⟩
        rw [sendData, htake, hheader]
        simp
      · exact absurd rfl h

/-- The frame that the receiver of a message reads first. -/
def firstFrame (message : Bytes) : Bytes :=
  (recvData (sendData message)).1

/-- What the receiver of a message finds after the first frame. -/
def laterBytes (message : Bytes) : Bytes :=
  (recvData (sendData message)).2

theorem firstFrame_eq (message : Bytes) :
    firstFrame message = message.take (message.length % 2 ^ 32) := by
  simpa [firstFrame] using congrArg Prod.fst (recvData_sendData message [])

theorem laterBytes_eq (message : Bytes) :
    laterBytes message = message.drop (message.length % 2 ^ 32) := by
  simpa [laterBytes] using congrArg Prod.snd (recvData_sendData message [])

theorem firstFrame_of_lt {message : Bytes} (h : message.length < 2 ^ 32) :
    firstFrame message = message := by
  rw [firstFrame_eq, Nat.mod_eq_of_lt h, List.take_length]

theorem laterBytes_of_lt {message : Bytes} (h : message.length < 2 ^ 32) :
    laterBytes message = [] := by
  rw [laterBytes_eq, Nat.mod_eq_of_lt h, List.drop_length]

theorem length_firstFrame_lt (message : Bytes) : (firstFrame message).length < 2 ^ 32 := by
  rw [firstFrame_eq, List.length_take]
  exact lt_of_le_of_lt (min_le_left _ _) (Nat.mod_lt _ (by norm_num))

/-! ## Conversations -/

/-- Send a message, receive one, or close the connection with the answer of the routine. -/
inductive Conv where
  | send (message : Bytes) (next : Conv)
  | recv (next : Bytes → Conv)
  | done (answer : Bytes)

/-- The answer once the connection delivers nothing more: a failed `sendMessage` gives the routine
up, and a failed `recvMessage` is an empty message. -/
def Conv.lost : Conv → Bytes
  | .send _ _ => []
  | .recv next => (next []).lost
  | .done answer => answer

end Network
end Dfs

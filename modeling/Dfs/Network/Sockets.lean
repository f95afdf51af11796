import Dfs.Network.Tcp

/-!
# Sending and receiving over sockets

The loops of `TCPClient` and `TCPServer` around `::send` and `::recv`.  A `::send` may accept any
part of its buffer and a `::recv` may deliver any part of what is there, so the two sides choose
the cuts of the byte stream independently; `recvFrame_eq` says that the cuts of the receiver do not
matter, and `sendFrame_wire` the same of the sender.
-/

namespace Dfs
namespace Network

open Bytes

/-! ## Sockets -/

/-- The sending end of a connection: the bytes accepted so far, and what the next `::send` calls
return if their buffers are long enough (when the answers run out, a call fails). -/
structure OutSocket where
  wire : Bytes
  answers : List Int
  deriving DecidableEq

/-- `::send(sock, buf, n, 0)`. -/
def OutSocket.send (out : OutSocket) (buf : Bytes) : Int × OutSocket :=
  match out.answers with
  | [] => (-1, out)
  | n :: answers =>
      if n ≤ 0 then (n, { out with answers := answers })
      else
        (min n buf.length,
          { wire := out.wire ++ buf.take n.toNat
            answers := answers })

/-- The receiving end: the bytes that arrive before the stream ends, and how many of them the next
`::recv` calls find (when the cuts run out, a call finds all it asks for). -/
structure InSocket where
  rest : Bytes
  cuts : List Nat

/-- `::recv(sock, buf, n, 0)`; no byte is delivered only at the end of the stream. -/
def InSocket.recv (inp : InSocket) (n : Nat) : Bytes × InSocket :=
  let k := match inp.cuts with
    | [] => n
    | c :: _ => max 1 (min c n)
  (inp.rest.take k,
    { rest := inp.rest.drop k
      cuts := inp.cuts.tail })

/-- `::recv(sock, buf, n, MSG_WAITALL)`. -/
def InSocket.recvAll (inp : InSocket) (n : Nat) : Bytes × InSocket :=
  (inp.rest.take n, { inp with rest := inp.rest.drop n })

/-! ## One frame -/

/-- The loop of `sendData`. -/
def sendLoop (data : Bytes) (sent : Nat) (out : OutSocket) : Bool × OutSocket :=
  if sent < data.length then
    if 0 < (out.send (data.drop sent)).1 then
      sendLoop data (sent + (out.send (data.drop sent)).1.toNat) (out.send (data.drop sent)).2
    else (false, (out.send (data.drop sent)).2)
  else (true, out)
termination_by data.length - sent
decreasing_by omega

/-- `sendData` past its guard. -/
def sendFrame (data : Bytes) (out : OutSocket) : Bool × OutSocket :=
  let (n, out') := out.send (len32 data.length)
  if n ≠ 4 then (false, out') else sendLoop data 0 out'

/-- The loop of `recvData`; `result` holds the first `got` bytes of the buffer. -/
def recvLoop (len : Nat) (result : Bytes) (inp : InSocket) : Bytes × InSocket :=
  if result.length < len then
    if (inp.recv (len - result.length)).1 = [] then ([], (inp.recv (len - result.length)).2)
    else
      recvLoop len (result ++ (inp.recv (len - result.length)).1)
        (inp.recv (len - result.length)).2
  else (result, inp)
termination_by len - result.length
decreasing_by
  rename_i hlt hne
  have := List.length_pos_iff.2 hne
  rw [List.length_append]
  omega

/-- `recvData` past its guard. -/
def recvFrame (inp : InSocket) : Bytes × InSocket :=
  let (header, inp') := inp.recvAll 4
  match header with
  | [b₀, b₁, b₂, b₃] =>
      recvLoop (((b₀.toNat * 256 + b₁.toNat) * 256 + b₂.toNat) * 256 + b₃.toNat) [] inp'
  | _ => ([], inp')

/-! ## The two classes -/

structure TCPClient where
  sock : Int
  connected : Bool

namespace TCPClient

/-- The guard of every routine. -/
def isConnected (client : TCPClient) : Bool :=
  client.connected && 0 ≤ client.sock

def sendData (client : TCPClient) (data : Bytes) (out : OutSocket) : Bool × OutSocket :=
  if client.isConnected then sendFrame data out else (false, out)

def recvData (client : TCPClient) (inp : InSocket) : Bytes × InSocket :=
  if client.isConnected then recvFrame inp else ([], inp)

end TCPClient

structure SocketContext where
  socket : Int
  valid : Bool

structure TCPServer where
  clients : Nat → Option SocketContext

namespace TCPServer

/-- The guard of every routine: the client is known and valid. -/
def knows (server : TCPServer) (clientId : Nat) : Bool :=
  match server.clients clientId with
  | none => false
  | some context => context.valid

def sendData (server : TCPServer) (clientId : Nat) (data : Bytes) (out : OutSocket) :
    Bool × OutSocket :=
  if server.knows clientId then sendFrame data out else (false, out)

def recvData (server : TCPServer) (clientId : Nat) (inp : InSocket) : Bytes × InSocket :=
  if server.knows clientId then recvFrame inp else ([], inp)

end TCPServer

/-! ## What is on the wire -/

theorem send_wire {out out' : OutSocket} {buf : Bytes} {n : Int}
    (h : out.send buf = (n, out')) (hn : 0 < n) :
    out'.wire = out.wire ++ buf.take n.toNat ∧ n ≤ buf.length := by
  unfold OutSocket.send at h
  cases hanswers : out.answers with
  | nil =>
      simp only [hanswers, Prod.mk.injEq] at h
      omega
  | cons m answers =>
      by_cases hm : m ≤ 0
      · simp only [hanswers, if_pos hm, Prod.mk.injEq] at h
        omega
      · simp only [hanswers, if_neg hm, Prod.mk.injEq] at h
        rcases h with ⟨rfl, rfl⟩
        refine ⟨?_, min_le_right _ _⟩
        -- Taking more than there is takes everything.
        have hmin : (min m buf.length).toNat = min m.toNat buf.length := by omega
        rw [hmin, ← List.take_eq_take_min]

theorem sendLoop_wire {data : Bytes} {sent : Nat} {out : OutSocket}
    (h : (sendLoop data sent out).1 = true) :
    (sendLoop data sent out).2.wire = out.wire ++ data.drop sent := by
  induction sent, out using sendLoop.induct data with
  | case1 sent out hlt hpos ih =>
      rw [sendLoop, if_pos hlt, if_pos hpos] at h ⊢
      rcases send_wire (Prod.mk.eta (p := out.send (data.drop sent))).symm hpos with ⟨hwire, _⟩
      rw [ih h, hwire, List.append_assoc, ← List.drop_drop, List.take_append_drop]
  | case2 sent out hlt hpos =>
      rw [sendLoop, if_pos hlt, if_neg hpos] at h
      cases h
  | case3 sent out hge =>
      rw [sendLoop, if_neg hge, List.drop_eq_nil_of_le (Nat.le_of_not_lt hge), List.append_nil]

/-- A successful call has put the frame of its data on the wire, however the parts were cut. -/
theorem sendFrame_wire {data : Bytes} {out : OutSocket} (h : (sendFrame data out).1 = true) :
    (sendFrame data out).2.wire = out.wire ++ sendData data := by
  unfold sendFrame at h ⊢
  rcases hsend : out.send (len32 data.length) with ⟨n, out'⟩
  simp only [hsend] at h ⊢
  by_cases hn : n = 4
  · subst hn
    have hlen : (len32 data.length).length = 4 := rfl
    have hwire := (send_wire hsend (by decide)).1
    simp only [ne_eq, not_true_eq_false, if_false] at h ⊢
    rw [sendLoop_wire h, hwire, List.drop_zero, sendData, List.append_assoc]
    congr 2
  · simp [hn] at h

/-! ## What is read -/

theorem recv_eq_nil {inp : InSocket} {n : Nat} (hn : 0 < n) :
    (inp.recv n).1 = [] ↔ inp.rest = [] := by
  unfold InSocket.recv
  cases inp.cuts with
  | nil => simp [hn.ne']
  | cons c cuts =>
      have : max 1 (min c n) ≠ 0 := by omega
      simp [this]

/-- A `::recv` delivers the next bytes of the stream, at most as many as asked for. -/
theorem recv_split (inp : InSocket) {n : Nat} (hn : 0 < n) :
    inp.rest = (inp.recv n).1 ++ (inp.recv n).2.rest ∧ (inp.recv n).1.length ≤ n := by
  unfold InSocket.recv
  cases inp.cuts with
  | nil => simp
  | cons c cuts =>
      refine ⟨(List.take_append_drop _ _).symm, ?_⟩
      simp only [List.length_take]
      omega

/-- The loop fills its buffer with the next bytes of the stream, or drains a stream that is too
short. -/
theorem recvLoop_eq (len : Nat) (result : Bytes) (inp : InSocket) (h : result.length ≤ len) :
    ((recvLoop len result inp).1, (recvLoop len result inp).2.rest) =
      if len - result.length ≤ inp.rest.length then
        (result ++ inp.rest.take (len - result.length), inp.rest.drop (len - result.length))
      else ([], []) := by
  induction result, inp using recvLoop.induct len with
  | case1 result inp hlt hnil =>
      have hempty := (recv_eq_nil (by omega)).1 hnil
      have hdrained := (recv_split inp (Nat.sub_pos_of_lt hlt)).1
      rw [hempty, hnil, List.nil_append] at hdrained
      have hshort : ¬ len - result.length ≤ inp.rest.length := by
        rw [hempty, List.length_nil]
        omega
      rw [recvLoop, if_pos hlt, if_pos hnil, if_neg hshort, ← hdrained]
  | case2 result inp hlt hsome ih =>
      rcases recv_split inp (Nat.sub_pos_of_lt hlt) with ⟨hsplit, hle⟩
      rw [recvLoop, if_pos hlt, if_neg hsome]
      generalize inp.recv (len - result.length) = r at hsplit hle hsome ih ⊢
      rcases r with ⟨bytes, inp'⟩
      simp only at hsplit hle ih ⊢
      have hlen : (result ++ bytes).length = result.length + bytes.length := List.length_append
      rw [ih (by omega), hlen, hsplit, List.length_append]
      have hrest : len - result.length - bytes.length = len - (result.length + bytes.length) := by
        omega
      by_cases hfits : len - (result.length + bytes.length) ≤ inp'.rest.length
      · rw [if_pos hfits, if_pos (by omega), List.take_append, List.drop_append,
          List.take_of_length_le hle, List.drop_eq_nil_of_le hle, hrest, List.nil_append,
          List.append_assoc]
      · rw [if_neg hfits, if_neg (by omega)]
  | case3 result inp hge =>
      have hzero : len - result.length = 0 := by omega
      rw [recvLoop, if_neg hge, hzero]
      simp

/-- However the stream is cut, `recvData` reads what `recvData` on the bytes reads. -/
theorem recvFrame_eq (inp : InSocket) :
    ((recvFrame inp).1, (recvFrame inp).2.rest) = Network.recvData inp.rest := by
  unfold recvFrame InSocket.recvAll
  rcases inp with ⟨rest, cuts⟩
  match rest with
  | [] => rfl
  | [_] => rfl
  | [_, _] => rfl
  | [_, _, _] => rfl
  | b₀ :: b₁ :: b₂ :: b₃ :: rest =>
      have := recvLoop_eq (((b₀.toNat * 256 + b₁.toNat) * 256 + b₂.toNat) * 256 + b₃.toNat) []
        { rest := rest, cuts := cuts } (Nat.zero_le _)
      simpa [Network.recvData] using this

/-! ## Many messages -/

/-- Successive sends, up to the first that fails. -/
def sendMany (send : Bytes → OutSocket → Bool × OutSocket) :
    List Bytes → OutSocket → Bool × OutSocket
  | [], out => (true, out)
  | message :: messages, out =>
      if (send message out).1 then sendMany send messages (send message out).2
      else (false, (send message out).2)

/-- Successive receives. -/
def recvMany (recv : InSocket → Bytes × InSocket) : Nat → InSocket → List Bytes × InSocket
  | 0, inp => ([], inp)
  | n + 1, inp =>
      ((recv inp).1 :: (recvMany recv n (recv inp).2).1, (recvMany recv n (recv inp).2).2)

/-- The messages whose frames end within the first `p` bytes. -/
def complete : List Bytes → Nat → List Bytes
  | [], _ => []
  | message :: messages, p =>
      if 4 + message.length ≤ p then message :: complete messages (p - (4 + message.length))
      else []

/-- What one side sends with successful calls, the other receives: all of it and no byte more, and
of a stream that ends early exactly the complete messages, and then nothing. -/
def Delivers (send : Bytes → OutSocket → Bool × OutSocket) (recv : InSocket → Bytes × InSocket)
    (messages : List Bytes) : Prop :=
  ∀ out out', sendMany send messages out = (true, out') →
    ∃ sent, out'.wire = out.wire ++ sent ∧
      (∀ extra cuts,
        (recvMany recv messages.length { rest := sent ++ extra, cuts := cuts }).1 = messages ∧
        (recvMany recv messages.length { rest := sent ++ extra, cuts := cuts }).2.rest = extra) ∧
      ∀ p cuts n, (recvMany recv n { rest := sent.take p, cuts := cuts }).1 =
        (List.range n).map fun i => (complete messages p).getD i []

section Many

variable {send : Bytes → OutSocket → Bool × OutSocket} {recv : InSocket → Bytes × InSocket}

theorem sendMany_wire
    (hsend : ∀ data out, (send data out).1 = true →
      (send data out).2.wire = out.wire ++ sendData data)
    {messages : List Bytes} {out out' : OutSocket} (h : sendMany send messages out = (true, out')) :
    out'.wire = out.wire ++ (messages.map sendData).flatten := by
  induction messages generalizing out with
  | nil =>
      simp only [sendMany, Prod.mk.injEq, true_and] at h
      simp [h]
  | cons message messages ih =>
      cases hone : (send message out).1 with
      | false => simp [sendMany, hone] at h
      | true =>
          simp only [sendMany, hone, if_true] at h
          rw [ih h, hsend message out hone]
          simp

theorem recvMany_whole
    (hrecv : ∀ inp, ((recv inp).1, (recv inp).2.rest) = Network.recvData inp.rest)
    {messages : List Bytes} (hlen : ∀ m ∈ messages, m.length < 2 ^ 32) {extra : Bytes}
    {inp : InSocket} (hinp : inp.rest = (messages.map sendData).flatten ++ extra) :
    (recvMany recv messages.length inp).1 = messages ∧
      (recvMany recv messages.length inp).2.rest = extra := by
  induction messages generalizing inp with
  | nil => simpa [recvMany] using hinp
  | cons message messages ih =>
      have hone := hrecv inp
      rw [hinp, List.map_cons, List.flatten_cons, List.append_assoc, recvData_sendData,
        Nat.mod_eq_of_lt (hlen message (by simp)), List.take_left, List.drop_left] at hone
      simp only [Prod.mk.injEq] at hone
      have hrest := ih (fun m hm => hlen m (by simp [hm])) hone.2
      simp [recvMany, hone.1, hrest.1, hrest.2]

theorem recvMany_truncated
    (hrecv : ∀ inp, ((recv inp).1, (recv inp).2.rest) = Network.recvData inp.rest)
    {messages : List Bytes} (hlen : ∀ m ∈ messages, m.length < 2 ^ 32) (n : Nat) {p : Nat}
    {inp : InSocket} (hinp : inp.rest = ((messages.map sendData).flatten).take p) :
    (recvMany recv n inp).1 = (List.range n).map fun i => (complete messages p).getD i [] := by
  induction n generalizing messages p inp with
  | zero => rfl
  | succ n ih =>
      have hone := hrecv inp
      -- Where nothing complete is left, the stream is drained.
      have hdrained : complete messages p = [] → Network.recvData inp.rest = ([], []) →
          (recvMany recv (n + 1) inp).1 =
            (List.range (n + 1)).map fun i => (complete messages p).getD i [] := by
        intro hnone hnil
        rw [hnil] at hone
        simp only [Prod.mk.injEq] at hone
        have hlater := @ih [] (by simp) 0 (recv inp).2 (by simpa using hone.2)
        simp [recvMany, hone.1, hlater, hnone, List.range_succ_eq_map, complete, Function.comp_def]
      cases messages with
      | nil =>
          refine hdrained rfl ?_
          simp only [hinp, List.map_nil, List.flatten_nil, List.take_nil]
          rfl
      | cons message messages =>
          have hmessage := hlen message (by simp)
          by_cases hfits : 4 + message.length ≤ p
          · have hsplit : inp.rest = sendData message ++
                ((messages.map sendData).flatten).take (p - (4 + message.length)) := by
              have hlength : (sendData message).length = 4 + message.length := by
                rw [sendData, List.length_append]
                rfl
              rw [hinp, List.map_cons, List.flatten_cons, List.take_append, hlength,
                List.take_of_length_le (hlength ▸ hfits)]
            rw [hsplit, recvData_sendData, Nat.mod_eq_of_lt hmessage, List.take_left,
              List.drop_left] at hone
            simp only [Prod.mk.injEq] at hone
            have hlater := ih (fun m hm => hlen m (by simp [hm])) hone.2
            simp [recvMany, hone.1, hlater, complete, if_pos hfits, List.range_succ_eq_map]
          · refine hdrained (by simp [complete, if_neg hfits]) ?_
            rw [hinp, List.map_cons, List.flatten_cons]
            exact recvData_truncated hmessage (Nat.lt_of_not_le hfits)

theorem delivers_of_frames
    (hsend : ∀ data out, (send data out).1 = true →
      (send data out).2.wire = out.wire ++ sendData data)
    (hrecv : ∀ inp, ((recv inp).1, (recv inp).2.rest) = Network.recvData inp.rest)
    {messages : List Bytes} (hlen : ∀ m ∈ messages, m.length < 2 ^ 32) :
    Delivers send recv messages := by
  intro out out' hsent
  refine ⟨_, sendMany_wire hsend hsent, ?_, ?_⟩
  · intro extra cuts
    exact recvMany_whole hrecv hlen rfl
  · intro p cuts n
    exact recvMany_truncated hrecv hlen n rfl

end Many

/-- Both ways over a connection, messages arrive as they were sent, whatever the partial sends and
receives, and a truncated stream gives the complete messages and then nothing. -/
theorem framing_round_trip (client : TCPClient) (server : TCPServer) (clientId : Nat)
    (messages : List Bytes) (hclient : client.isConnected = true)
    (hserver : server.knows clientId = true) (hlen : ∀ m ∈ messages, m.length < 2 ^ 32) :
    Delivers client.sendData (server.recvData clientId) messages ∧
      Delivers (server.sendData clientId) client.recvData messages := by
  refine ⟨delivers_of_frames ?_ ?_ hlen, delivers_of_frames ?_ ?_ hlen⟩
  · intro data out hsent
    simp only [TCPClient.sendData, hclient, if_true] at hsent ⊢
    exact sendFrame_wire hsent
  · intro inp
    simp only [TCPServer.recvData, hserver, if_true]
    exact recvFrame_eq inp
  · intro data out hsent
    simp only [TCPServer.sendData, hserver, if_true] at hsent ⊢
    exact sendFrame_wire hsent
  · intro inp
    simp only [TCPClient.recvData, hclient, if_true]
    exact recvFrame_eq inp

/-- Three messages, the second empty, sent in pieces and read from a stream that ends within the
third. -/
theorem framing_round_trip_pieces :
    let client : TCPClient := { sock := 3, connected := true }
    let server : TCPServer :=
      { clients := fun clientId =>
          if clientId = 1 then some { socket := 4, valid := true } else none }
    let out := (sendMany client.sendData [ascii "STORE h", [], ascii "abc"]
      { wire := [], answers := [4, 2, 1, 9, 4, 4, 1, 1, 1] }).2
    (recvMany (server.recvData 1) 4 { rest := out.wire.take 20, cuts := [3, 1, 5] }).1 =
      [ascii "STORE h", [], [], []] := by
  intro client server out
  have hspec := (framing_round_trip client server 1 [ascii "STORE h", [], ascii "abc"] rfl rfl
    (by decide)).1
  rcases hspec { wire := [], answers := [4, 2, 1, 9, 4, 4, 1, 1, 1] } out (by decide +kernel) with
    ⟨sent, hwire, _, htruncated⟩
  rw [hwire, List.nil_append, htruncated]
  rfl

end Network
end Dfs

import Dfs.Library.SortedMap
import Dfs.Library.Transition
import Dfs.Network.Sockets
import Mathlib.Logic.Function.Basic
import Mathlib.Data.List.Nodup

/-!
# The connection registry

`TCPServer::acceptClient`, `closeClient` and `stop` on the map `clients_`, with the sockets the
operating system has open.  Any number of `acceptClient` calls may be under way; what a call does
under `clientsMutex_` is one step, and between `accept` and the lock the new socket is in the hands
of its call alone.  `stop` closes the listener before it takes the lock, so other calls may come in
between, and a blocked `accept` may still complete after it.
-/

namespace Dfs
namespace Network
namespace Registry

open Bytes

/-- What an open socket number refers to: the listening socket, the `c`-th connection that
`accept` returned, or a socket of another part of the process. -/
inductive Holder where
  | listener
  | connection (c : Nat)
  | other
  deriving DecidableEq

structure TCPServer where
  serverSock : Int
  running : Bool
  clients : SortedMap Int SocketContext
  nextClientId : Int

/-- What `sendData` and `recvData` look up. -/
def TCPServer.view (server : TCPServer) : Network.TCPServer where
  clients clientId := server.clients.find? clientId

/-- How far the `stop` that found the server running has come. -/
inductive Stopping where
  | idle
  | listener
  | clients

/-- The server, the calls under way and the open sockets, with a record of what was done. -/
structure World where
  server : TCPServer
  stopping : Stopping
  /-- `acceptClient` calls inside `accept` -/
  blocked : Nat
  /-- `clientSock` of the calls between `accept` and the lock, with the connection behind it -/
  inHand : List (Int × Nat)
  sockets : Int → Option Holder
  /-- connections that `accept` has returned so far -/
  connections : Nat
  /-- what `acceptClient` returned, with the connection registered under it -/
  registered : List (Int × Nat)
  /-- what each `::close` of the server found open under its number -/
  closes : List (Option Holder)
  /-- ids whose entry `closeClient` or `stop` removed -/
  retired : List Int

/-- A server that has just started to listen on the socket `sock`. -/
def World.started (sock : Int) : World where
  server :=
    { serverSock := sock
      running := true
      clients := SortedMap.empty
      nextClientId := 1 }
  stopping := .idle
  blocked := 0
  inHand := []
  sockets := Function.update (fun _ => none) sock (some .listener)
  connections := 0
  registered := []
  closes := []
  retired := []

namespace World

/-! ## The operations -/

/-- `::close(sock)`. -/
def close (w : World) (sock : Int) : World :=
  { w with
    sockets := Function.update w.sockets sock none
    closes := w.closes ++ [w.sockets sock] }

/-- `if (socket >= 0) ::close(socket)`. -/
def closeSocket (w : World) (sock : Int) : World :=
  if 0 ≤ sock then w.close sock else w

/-- The end of `acceptClient`, under the lock. -/
def register (w : World) (sock : Int) (c : Nat) : World :=
  { w with
    server := { w.server with
      clients := w.server.clients.insert w.server.nextClientId ⟨sock, true⟩
      nextClientId := toInt32 (w.server.nextClientId + 1) }
    inHand := w.inHand.erase (sock, c)
    registered := w.registered ++ [(w.server.nextClientId, c)] }

/-- `closeClient`; what it writes into the entry goes with the entry. -/
def closeClient (w : World) (clientId : Int) : World :=
  match w.server.clients.find? clientId with
  | none => w
  | some ctx =>
      { w.closeSocket ctx.socket with
        server := { w.server with clients := w.server.clients.erase clientId }
        retired := w.retired ++ [clientId] }

/-- The first part of `stop`. -/
def stop (w : World) : World :=
  if w.server.running then
    { w with
      server := { w.server with running := false }
      stopping := .listener }
  else w

/-- The second part of `stop`, still without the lock. -/
def stopListening (w : World) : World :=
  { w.closeSocket w.server.serverSock with
    server := { w.server with serverSock := -1 }
    stopping := .clients }

/-- The loop of `stop` over the entries. -/
def closeAll (w : World) (entries : List (Int × SocketContext)) : World :=
  entries.foldl (fun w p => w.closeSocket p.2.socket) w

/-- The last part of `stop`, under the lock. -/
def stopClients (w : World) : World :=
  { w.closeAll w.server.clients.entries with
    server := { w.server with clients := SortedMap.empty }
    stopping := .idle
    retired := w.retired ++ w.server.clients.entries.map Prod.fst }

end World

/-! ## Steps -/

inductive ServerStep where
  /-- `acceptClient` passes its test and calls `accept` -/
  | enter
  /-- `accept` returns a new connection under a number that is not open -/
  | accept (sock : Int)
  | acceptFails
  /-- a call that has its connection takes the lock -/
  | register (sock : Int) (c : Nat)
  | closeClient (clientId : Int)
  | stop
  | stopListening
  | stopClients
  /-- another part of the process opens or closes a socket of its own -/
  | openOther (sock : Int)
  | closeOther (sock : Int)
  deriving DecidableEq

def serverStep (w : World) : ServerStep → Option World
  | .enter =>
      if w.server.running ∧ 0 ≤ w.server.serverSock then
        some { w with blocked := w.blocked + 1 }
      else none
  | .accept sock =>
      if 0 < w.blocked ∧ 0 ≤ sock ∧ w.sockets sock = none then
        some
          { w with
            blocked := w.blocked - 1
            inHand := w.inHand ++ [(sock, w.connections)]
            sockets := Function.update w.sockets sock (some (.connection w.connections))
            connections := w.connections + 1 }
      else none
  | .acceptFails =>
      if 0 < w.blocked then some { w with blocked := w.blocked - 1 } else none
  | .register sock c => if (sock, c) ∈ w.inHand then some (w.register sock c) else none
  | .closeClient clientId => some (w.closeClient clientId)
  | .stop => some w.stop
  | .stopListening =>
      match w.stopping with
      | .listener => some w.stopListening
      | _ => none
  | .stopClients =>
      match w.stopping with
      | .clients => some w.stopClients
      | _ => none
  | .openOther sock =>
      if w.sockets sock = none then
        some { w with sockets := Function.update w.sockets sock (some .other) }
      else none
  | .closeOther sock =>
      if w.sockets sock = some .other then
        some { w with sockets := Function.update w.sockets sock none }
      else none

/-! ## The invariant -/

/-- What holds between the registry and the open sockets whenever the lock is free. -/
structure Accounted (w : World) : Prop where
  /-- an entry's socket is the connection that was registered under its id -/
  entry : ∀ e ∈ w.server.clients.entries, 0 ≤ e.2.socket ∧ ∃ c, (e.1, c) ∈ w.registered ∧
    w.sockets e.2.socket = some (.connection c)
  valid : ∀ e ∈ w.server.clients.entries, e.2.valid = true
  /-- an open connection is in the hands of a call or has an entry -/
  held : ∀ n c, w.sockets n = some (.connection c) →
    (n, c) ∈ w.inHand ∨ ∃ e ∈ w.server.clients.entries, e.2.socket = n
  hand : ∀ p ∈ w.inHand, 0 ≤ p.1 ∧ w.sockets p.1 = some (.connection p.2) ∧
    p.2 ∉ w.registered.map Prod.snd
  handNodup : (w.inHand.map Prod.snd).Nodup
  /-- a connection has one number -/
  table : ∀ n m c, w.sockets n = some (.connection c) → w.sockets m = some (.connection c) → n = m
  numbered : (∀ n c, w.sockets n = some (.connection c) → c < w.connections) ∧
    ∀ p ∈ w.registered, p.2 < w.connections
  connsNodup : (w.registered.map Prod.snd).Nodup
  idsNodup : (w.registered.map Prod.fst).Nodup
  ids : ∀ p ∈ w.registered, p.1 ≤ w.registered.length
  next : w.server.nextClientId = toInt32 (w.registered.length + 1)
  retired : ∀ clientId ∈ w.retired, clientId ∈ w.registered.map Prod.fst ∧
    ∀ ctx, (clientId, ctx) ∉ w.server.clients.entries
  /-- a close call finds the listener or a registered connection, which is not open afterwards -/
  closed : ∀ h ∈ w.closes, (h = some .listener ∧ w.server.serverSock < 0) ∨
    ∃ c ∈ w.registered.map Prod.snd, h = some (.connection c) ∧ ∀ n, w.sockets n ≠ h
  closedOnce : w.closes.Nodup
  listening : 0 ≤ w.server.serverSock → w.sockets w.server.serverSock = some .listener

theorem accounted_started (sock : Int) : Accounted (World.started sock) := by
  have hnone : ∀ n c, (World.started sock).sockets n ≠ some (.connection c) := by
    intro n c
    by_cases hn : n = sock
    · simp [World.started, hn]
    · simp [World.started, hn]
  constructor
  · simp [World.started]
  · simp [World.started]
  · exact fun n c h => absurd h (hnone n c)
  · simp [World.started]
  · simp [World.started]
  · exact fun n m c h => absurd h (hnone n c)
  · exact ⟨fun n c h => absurd h (hnone n c), by simp [World.started]⟩
  · simp [World.started]
  · simp [World.started]
  · simp [World.started]
  · simp [World.started, toInt32]
  · simp [World.started]
  · simp [World.started]
  · simp [World.started]
  · simp [World.started]

namespace Accounted

variable {w : World}

/-- Two entries of one connection are one entry. -/
theorem entry_unique (h : Accounted w) {c : Nat} {e e' : Int × SocketContext}
    (he : e ∈ w.server.clients.entries) (he' : e' ∈ w.server.clients.entries)
    (hc : w.sockets e.2.socket = some (.connection c))
    (hc' : w.sockets e'.2.socket = some (.connection c)) : e = e' := by
  rcases h.entry e he with ⟨_, a, ha, hsock⟩
  rcases h.entry e' he' with ⟨_, a', ha', hsock'⟩
  have hac : a = c := by simpa [hsock] using hc
  have hac' : a' = c := by simpa [hsock'] using hc'
  have hpair : (e.1, a) = (e'.1, a') :=
    List.inj_on_of_nodup_map h.connsNodup ha ha' (by rw [hac, hac'])
  exact SortedMap.eq_of_mem_of_key_eq he he' (Prod.ext_iff.1 hpair).1

/-- No call holds a connection that has an entry. -/
theorem entry_not_in_hand (h : Accounted w) {e : Int × SocketContext} {p : Int × Nat}
    (he : e ∈ w.server.clients.entries) (hp : p ∈ w.inHand) : e.2.socket ≠ p.1 := by
  rintro heq
  rcases h.entry e he with ⟨_, c, hc, hsock⟩
  rcases h.hand p hp with ⟨_, hopen, hnew⟩
  rw [heq, hopen, Option.some.injEq, Holder.connection.injEq] at hsock
  subst hsock
  exact hnew (List.mem_map.2 ⟨_, hc, rfl⟩)

end Accounted

/-! ## What each step preserves -/

/-- Closing the socket of an entry and taking the entry out. -/
theorem accounted_closeClient {w : World} (h : Accounted w) (clientId : Int) :
    Accounted (w.closeClient clientId) := by
  unfold World.closeClient
  cases hfind : w.server.clients.find? clientId with
  | none => exact h
  | some ctx =>
      have hmem := SortedMap.find?_eq_some.1 hfind
      rcases h.entry _ hmem with ⟨hnonneg, c, hreg, hsock⟩
      have hclose : w.closeSocket ctx.socket = w.close ctx.socket := if_pos hnonneg
      -- a socket that is open afterwards was open before and is another one
      have hopen : ∀ n x, Function.update w.sockets ctx.socket none n = some x →
          n ≠ ctx.socket ∧ w.sockets n = some x := by
        intro n x hx
        by_cases hn : n = ctx.socket
        · simp [hn] at hx
        · exact ⟨hn, by simpa [hn] using hx⟩
      have hother : ∀ n x, w.sockets n = some x → x ≠ .connection c →
          Function.update w.sockets ctx.socket none n = some x := by
        intro n x hx hne
        have hn : n ≠ ctx.socket := by
          rintro rfl
          exact hne (by simpa [hsock] using hx.symm)
        simpa [hn] using hx
      simp only [hclose]
      constructor
      · intro e he
        rcases SortedMap.mem_erase.1 he with ⟨hold, hkey⟩
        rcases h.entry e hold with ⟨hpos, a, ha, hopenE⟩
        refine ⟨hpos, a, ha, hother _ _ hopenE fun heq => hkey ?_⟩
        exact congrArg Prod.fst (h.entry_unique hold hmem (heq ▸ hopenE) hsock)
      · exact fun e he => h.valid e (SortedMap.mem_erase.1 he).1
      · intro n a hn
        rcases hopen n _ hn with ⟨hne, hopenN⟩
        rcases h.held n a hopenN with hhand | ⟨e, he, heq⟩
        · exact Or.inl hhand
        · refine Or.inr ⟨e, SortedMap.mem_erase.2 ⟨he, fun hkey => hne ?_⟩, heq⟩
          rw [← heq, SortedMap.eq_of_mem_of_key_eq he hmem hkey]
      · intro p hp
        rcases h.hand p hp with ⟨hpos, hopenP, hnew⟩
        refine ⟨hpos, hother _ _ hopenP fun heq => ?_, hnew⟩
        rw [Holder.connection.injEq] at heq
        exact hnew (heq ▸ List.mem_map_of_mem hreg)
      · exact h.handNodup
      · exact fun n m a hn hm => h.table n m a (hopen n _ hn).2 (hopen m _ hm).2
      · exact ⟨fun n a hn => h.numbered.1 n a (hopen n _ hn).2, h.numbered.2⟩
      · exact h.connsNodup
      · exact h.idsNodup
      · exact h.ids
      · exact h.next
      · intro id hid
        rcases List.mem_append.1 hid with hold | hlast
        · rcases h.retired id hold with ⟨hidReg, hgone⟩
          exact ⟨hidReg, fun x hx => hgone x (SortedMap.mem_erase.1 hx).1⟩
        · obtain rfl := List.mem_singleton.1 hlast
          exact ⟨List.mem_map_of_mem hreg, fun x hx => (SortedMap.mem_erase.1 hx).2 rfl⟩
      · intro x hx
        rcases List.mem_append.1 hx with hold | hlast
        · rcases h.closed x hold with hlistener | ⟨a, ha, rfl, hgone⟩
          · exact Or.inl hlistener
          · exact Or.inr ⟨a, ha, rfl, fun n hn => hgone n (hopen n _ hn).2⟩
        · obtain rfl := List.mem_singleton.1 hlast
          refine Or.inr ⟨c, List.mem_map_of_mem hreg, hsock, fun n hn => ?_⟩
          rcases hopen n _ (hn.trans hsock) with ⟨hne, hopenN⟩
          exact hne (h.table n _ c hopenN hsock)
      · refine List.nodup_append.2 ⟨h.closedOnce, List.nodup_singleton _, ?_⟩
        rintro x hx y hy rfl
        obtain rfl := List.mem_singleton.1 hy
        rcases h.closed _ hx with ⟨hlistener, _⟩ | ⟨_, _, _, hgone⟩
        · simp [hsock] at hlistener
        · exact hgone _ rfl
      · intro hserver
        exact hother _ _ (h.listening hserver) (by simp)

/-- Sockets of other parts of the process come and go beside the registry. -/
theorem Accounted.update_other {w : World} (h : Accounted w) {n : Int} {x : Option Holder}
    (hbefore : ∀ c, w.sockets n ≠ some (.connection c)) (hafter : ∀ c, x ≠ some (.connection c))
    (hserver : 0 ≤ w.server.serverSock → w.server.serverSock ≠ n) :
    Accounted { w with sockets := Function.update w.sockets n x } := by
  have hiff : ∀ m c, Function.update w.sockets n x m = some (.connection c) ↔
      w.sockets m = some (.connection c) := by
    intro m c
    by_cases hm : m = n
    · subst hm
      simp [hbefore c, hafter c]
    · simp [hm]
  constructor
  · intro e he
    rcases h.entry e he with ⟨hpos, c, hc, hopen⟩
    exact ⟨hpos, c, hc, (hiff _ c).2 hopen⟩
  · exact h.valid
  · exact fun m c hm => h.held m c ((hiff m c).1 hm)
  · intro p hp
    rcases h.hand p hp with ⟨hpos, hopen, hnew⟩
    exact ⟨hpos, (hiff _ _).2 hopen, hnew⟩
  · exact h.handNodup
  · exact fun m m' c hm hm' => h.table m m' c ((hiff m c).1 hm) ((hiff m' c).1 hm')
  · exact ⟨fun m c hm => h.numbered.1 m c ((hiff m c).1 hm), h.numbered.2⟩
  · exact h.connsNodup
  · exact h.idsNodup
  · exact h.ids
  · exact h.next
  · exact h.retired
  · intro y hy
    rcases h.closed y hy with hlistener | ⟨c, hc, rfl, hgone⟩
    · exact Or.inl hlistener
    · exact Or.inr ⟨c, hc, rfl, fun m hm => hgone m ((hiff m c).1 hm)⟩
  · exact h.closedOnce
  · intro hpos
    simpa [hserver hpos] using h.listening hpos

theorem accounted_stopListening {w : World} (h : Accounted w) : Accounted w.stopListening := by
  have hoff : Accounted { w with server := { w.server with serverSock := -1 } } := by
    refine { h with closed := ?_, listening := by simp }
    intro y hy
    rcases h.closed y hy with ⟨rfl, _⟩ | hclosed
    · exact Or.inl ⟨rfl, by simp⟩
    · exact Or.inr hclosed
  unfold World.stopListening
  by_cases hpos : 0 ≤ w.server.serverSock
  · have hlisten := h.listening hpos
    have hclosed := hoff.update_other (n := w.server.serverSock) (x := none)
      (by simp [hlisten]) (by simp) (by simp)
    rw [World.closeSocket, if_pos hpos]
    refine { hclosed with closed := ?_, closedOnce := ?_ }
    · intro y hy
      rcases List.mem_append.1 hy with hold | hlast
      · exact hclosed.closed y hold
      · obtain rfl := List.mem_singleton.1 hlast
        exact Or.inl ⟨hlisten, by simp⟩
    · refine List.nodup_append.2 ⟨h.closedOnce, List.nodup_singleton _, ?_⟩
      rintro y hy z hz rfl
      obtain rfl := List.mem_singleton.1 hz
      -- a listener closed before would have left no listening socket
      rcases h.closed _ hy with ⟨_, hneg⟩ | ⟨c, _, hc, _⟩
      · omega
      · simp [hlisten] at hc
  · rw [World.closeSocket, if_neg hpos]
    exact { hoff with }

theorem accounted_accept {w : World} (h : Accounted w) {sock : Int} (hpos : 0 ≤ sock)
    (hfree : w.sockets sock = none) :
    Accounted
      { w with
        blocked := w.blocked - 1
        inHand := w.inHand ++ [(sock, w.connections)]
        sockets := Function.update w.sockets sock (some (.connection w.connections))
        connections := w.connections + 1 } := by
  have hkeep : ∀ n x, w.sockets n = some x →
      Function.update w.sockets sock (some (.connection w.connections)) n = some x := by
    intro n x hx
    have hn : n ≠ sock := by
      rintro rfl
      simp [hfree] at hx
    simpa [hn] using hx
  have hcases : ∀ n c,
      Function.update w.sockets sock (some (.connection w.connections)) n = some (.connection c) →
      (n = sock ∧ c = w.connections) ∨ (w.sockets n = some (.connection c) ∧ c < w.connections) := by
    intro n c hn
    by_cases hs : n = sock
    · subst hs
      exact Or.inl ⟨rfl, by simpa using hn.symm⟩
    · have hold : w.sockets n = some (.connection c) := by simpa [hs] using hn
      exact Or.inr ⟨hold, h.numbered.1 n c hold⟩
  constructor
  · intro e he
    rcases h.entry e he with ⟨hnonneg, c, hc, hopen⟩
    exact ⟨hnonneg, c, hc, hkeep _ _ hopen⟩
  · exact h.valid
  · intro n c hn
    rcases hcases n c hn with ⟨rfl, rfl⟩ | ⟨hold, _⟩
    · exact Or.inl (by simp)
    · exact (h.held n c hold).imp_left fun hmem => List.mem_append_left _ hmem
  · intro p hp
    rcases List.mem_append.1 hp with hold | hlast
    · rcases h.hand p hold with ⟨hnonneg, hopen, hnew⟩
      exact ⟨hnonneg, hkeep _ _ hopen, hnew⟩
    · obtain rfl := List.mem_singleton.1 hlast
      refine ⟨hpos, by simp, fun hmem => ?_⟩
      rcases List.mem_map.1 hmem with ⟨q, hq, heq⟩
      exact absurd (h.numbered.2 q hq) (by omega)
  · rw [List.map_append, List.nodup_append]
    refine ⟨h.handNodup, List.nodup_singleton _, ?_⟩
    rintro c hc c' hc' rfl
    obtain rfl := List.mem_singleton.1 hc'
    rcases List.mem_map.1 hc with ⟨q, hq, heq⟩
    exact absurd (h.numbered.1 _ _ (h.hand q hq).2.1) (by simp [heq])
  · intro n m c hn hm
    rcases hcases n c hn with ⟨rfl, rfl⟩ | ⟨hold, hlt⟩ <;>
      rcases hcases m _ hm with ⟨rfl, hc⟩ | ⟨hold', hlt'⟩
    · rfl
    · exact absurd hlt' (lt_irrefl _)
    · exact absurd hlt (by omega)
    · exact h.table n m c hold hold'
  · refine ⟨fun n c hn => ?_, fun p hp => Nat.lt_succ_of_lt (h.numbered.2 p hp)⟩
    rcases hcases n c hn with ⟨_, rfl⟩ | ⟨_, hlt⟩
    · exact Nat.lt_succ_self _
    · exact Nat.lt_succ_of_lt hlt
  · exact h.connsNodup
  · exact h.idsNodup
  · exact h.ids
  · exact h.next
  · exact h.retired
  · intro y hy
    rcases h.closed y hy with hlistener | ⟨c, hc, rfl, hgone⟩
    · exact Or.inl hlistener
    · refine Or.inr ⟨c, hc, rfl, fun n hn => ?_⟩
      rcases hcases n c hn with ⟨_, rfl⟩ | ⟨hold, _⟩
      · rcases List.mem_map.1 hc with ⟨q, hq, heq⟩
        exact absurd (h.numbered.2 q hq) (by omega)
      · exact hgone n hold
  · exact h.closedOnce
  · exact fun hserver => hkeep _ _ (h.listening hserver)

/-- While fewer than `2 ^ 31` connections have an id, a new id is above all others. -/
theorem accounted_register {w : World} (h : Accounted w) {sock : Int} {c : Nat}
    (hhand : (sock, c) ∈ w.inHand) (hfew : w.registered.length + 1 < 2 ^ 31) :
    Accounted (w.register sock c) := by
  rcases h.hand _ hhand with ⟨hpos, hopen, hnew⟩
  have hnext : w.server.nextClientId = w.registered.length + 1 := by
    rw [h.next]
    exact toInt32_of_range (by omega) (by omega)
  have hfresh : ∀ p ∈ w.registered, p.1 ≠ w.server.nextClientId := by
    intro p hp heq
    have := h.ids p hp
    omega
  have hnoEntry : ∀ e ∈ w.server.clients.entries, e.1 ≠ w.server.nextClientId := by
    intro e he
    rcases h.entry e he with ⟨_, a, ha, _⟩
    exact hfresh _ ha
  constructor
  · intro e he
    rcases SortedMap.mem_insert.1 he with rfl | ⟨hold, _⟩
    · exact ⟨hpos, c, by simp [World.register], hopen⟩
    · rcases h.entry e hold with ⟨hnonneg, a, ha, hsock⟩
      exact ⟨hnonneg, a, List.mem_append_left _ ha, hsock⟩
  · intro e he
    rcases SortedMap.mem_insert.1 he with rfl | ⟨hold, _⟩
    · rfl
    · exact h.valid e hold
  · intro n a hn
    rcases h.held n a hn with hmem | ⟨e, he, heq⟩
    · by_cases hsame : (n, a) = (sock, c)
      · rw [Prod.mk.injEq] at hsame
        exact Or.inr ⟨_, SortedMap.mem_insert.2 (Or.inl rfl), hsame.1.symm⟩
      · exact Or.inl ((List.mem_erase_of_ne hsame).2 hmem)
    · exact Or.inr ⟨e, SortedMap.mem_insert.2 (Or.inr ⟨he, hnoEntry e he⟩), heq⟩
  · intro p hp
    have hpairs : w.inHand.Nodup := List.Nodup.of_map _ h.handNodup
    rcases (hpairs.mem_erase_iff).1 hp with ⟨hne, hmem⟩
    rcases h.hand p hmem with ⟨hnonneg, hsock, hfreshP⟩
    refine ⟨hnonneg, hsock, ?_⟩
    simp only [World.register, List.map_append, List.mem_append, not_or]
    refine ⟨hfreshP, fun hlast => hne ?_⟩
    exact List.inj_on_of_nodup_map h.handNodup hmem hhand (by simpa using hlast)
  · exact h.handNodup.sublist (List.Sublist.map _ List.erase_sublist)
  · exact h.table
  · refine ⟨h.numbered.1, fun p hp => ?_⟩
    rcases List.mem_append.1 hp with hold | hlast
    · exact h.numbered.2 p hold
    · obtain rfl := List.mem_singleton.1 hlast
      exact h.numbered.1 _ _ hopen
  · simp only [World.register, List.map_append, List.map_cons, List.map_nil]
    refine List.nodup_append.2 ⟨h.connsNodup, List.nodup_singleton _, ?_⟩
    rintro a ha b hb rfl
    obtain rfl := List.mem_singleton.1 hb
    exact hnew ha
  · simp only [World.register, List.map_append, List.map_cons, List.map_nil]
    refine List.nodup_append.2 ⟨h.idsNodup, List.nodup_singleton _, ?_⟩
    rintro a ha b hb rfl
    obtain rfl := List.mem_singleton.1 hb
    rcases List.mem_map.1 ha with ⟨p, hp, heq⟩
    exact hfresh p hp heq
  · intro p hp
    simp only [World.register, List.length_append, List.length_singleton]
    rcases List.mem_append.1 hp with hold | hlast
    · have := h.ids p hold
      omega
    · obtain rfl := List.mem_singleton.1 hlast
      simp only [hnext]
      omega
  · simp [World.register, hnext]
  · intro id hid
    rcases h.retired id hid with ⟨hmem, hgone⟩
    refine ⟨by simp [World.register, hmem], fun ctx hctx => ?_⟩
    rcases SortedMap.mem_insert.1 hctx with heq | ⟨hold, _⟩
    · rcases List.mem_map.1 hmem with ⟨p, hp, rfl⟩
      exact hfresh p hp (congrArg Prod.fst heq)
    · exact hgone ctx hold
  · intro y hy
    rcases h.closed y hy with hlistener | ⟨a, ha, rfl, hgone⟩
    · exact Or.inl hlistener
    · exact Or.inr ⟨a, by simp [World.register, List.mem_map.1 ha], rfl, hgone⟩
  · exact h.closedOnce
  · exact h.listening

/-! ## The loop of `stop` -/

namespace World

/-- The same sockets with other entries and other removed ids. -/
def withRegistry (w : World) (clients : SortedMap Int SocketContext) (retired : List Int) : World :=
  { w with
    server := { w.server with clients := clients }
    retired := retired }

theorem closeAll_withRegistry (es : List (Int × SocketContext)) (w : World)
    (clients : SortedMap Int SocketContext) (retired : List Int) :
    (w.withRegistry clients retired).closeAll es =
      (w.closeAll es).withRegistry clients retired := by
  induction es generalizing w with
  | nil => rfl
  | cons e es ih =>
      have hhead : (w.withRegistry clients retired).closeSocket e.2.socket =
          (w.closeSocket e.2.socket).withRegistry clients retired := by
        unfold closeSocket
        split <;> rfl
      calc
        (w.withRegistry clients retired).closeAll (e :: es)
            = ((w.withRegistry clients retired).closeSocket e.2.socket).closeAll es := rfl
        _ = ((w.closeSocket e.2.socket).withRegistry clients retired).closeAll es := by rw [hhead]
        _ = (w.closeAll (e :: es)).withRegistry clients retired := ih _

theorem closeClient_of_find {w : World} {clientId : Int} {ctx : SocketContext}
    (h : w.server.clients.find? clientId = some ctx) :
    w.closeClient clientId = (w.closeSocket ctx.socket).withRegistry
      (w.server.clients.erase clientId) (w.retired ++ [clientId]) := by
  unfold closeClient closeSocket
  simp only [h]
  by_cases hpos : 0 ≤ ctx.socket
  · simp only [if_pos hpos]
    rfl
  · simp only [if_neg hpos]
    rfl

/-- Closing the clients of some entries one after the other closes the sockets that the loop
closes, in the same order, and leaves the other entries. -/
theorem foldl_closeClient (es : List (Int × SocketContext)) {w : World}
    (hmem : ∀ e ∈ es, e ∈ w.server.clients.entries) (hnodup : (es.map Prod.fst).Nodup) :
    (es.map Prod.fst).foldl closeClient w = (w.closeAll es).withRegistry
      ((es.map Prod.fst).foldl SortedMap.erase w.server.clients) (w.retired ++ es.map Prod.fst) := by
  induction es generalizing w with
  | nil => simp [closeAll, withRegistry]
  | cons e es ih =>
      rcases List.nodup_cons.1 hnodup with ⟨hhead, htail⟩
      have hclose := closeClient_of_find (SortedMap.find?_eq_some.2 (hmem e (by simp)))
      have hrest : ∀ a ∈ es, a ∈ (w.closeClient e.1).server.clients.entries := by
        intro a ha
        rw [hclose]
        refine SortedMap.mem_erase.2 ⟨hmem a (by simp [ha]), fun heq => hhead ?_⟩
        exact heq ▸ List.mem_map_of_mem ha
      rw [List.map_cons, List.foldl_cons, ih hrest htail, hclose, closeAll_withRegistry]
      simp [withRegistry, closeAll]

theorem closeAll_server (es : List (Int × SocketContext)) (w : World) :
    (w.closeAll es).server = w.server := by
  induction es generalizing w with
  | nil => rfl
  | cons e es ih =>
      have hhead : (w.closeSocket e.2.socket).server = w.server := by
        unfold closeSocket
        split <;> rfl
      exact (ih _).trans hhead

theorem mem_foldl_erase (ks : List Int) {m : SortedMap Int SocketContext}
    {e : Int × SocketContext} :
    e ∈ (ks.foldl SortedMap.erase m).entries ↔ e ∈ m.entries ∧ e.1 ∉ ks := by
  induction ks generalizing m with
  | nil => simp
  | cons k ks ih => simp [ih, and_assoc]

/-- The last part of `stop` does what closing all clients would. -/
theorem stopClients_eq (w : World) :
    w.stopClients = { (w.server.clients.entries.map Prod.fst).foldl closeClient w with
      stopping := .idle } := by
  have hempty : (w.server.clients.entries.map Prod.fst).foldl SortedMap.erase w.server.clients =
      SortedMap.empty := by
    refine SortedMap.ext_mem fun e => ?_
    simp only [mem_foldl_erase, SortedMap.mem_empty, iff_false, not_and, not_not]
    exact List.mem_map_of_mem
  rw [foldl_closeClient _ (fun _ he => he) w.server.clients.keys_nodup, hempty]
  simp only [stopClients, withRegistry, closeAll_server]

end World

theorem accounted_foldl_closeClient (ids : List Int) {w : World} (h : Accounted w) :
    Accounted (ids.foldl World.closeClient w) := by
  induction ids generalizing w with
  | nil => exact h
  | cons id ids ih => exact ih (accounted_closeClient h id)

theorem accounted_stopClients {w : World} (h : Accounted w) : Accounted w.stopClients := by
  rw [World.stopClients_eq]
  exact { accounted_foldl_closeClient (w.server.clients.entries.map Prod.fst) h with }

/-! ## Runs -/

theorem accounted_step {w w' : World} {l : ServerStep} (h : Accounted w)
    (hfew : w'.registered.length < 2 ^ 31) (hs : serverStep w l = some w') : Accounted w' := by
  cases l with
  | enter =>
      rcases Option.ite_none_right_eq_some.1 hs with ⟨_, hw⟩
      obtain rfl := Option.some.inj hw
      exact { h with }
  | accept sock =>
      rcases Option.ite_none_right_eq_some.1 hs with ⟨⟨_, hpos, hfree⟩, hw⟩
      obtain rfl := Option.some.inj hw
      exact accounted_accept h hpos hfree
  | acceptFails =>
      rcases Option.ite_none_right_eq_some.1 hs with ⟨_, hw⟩
      obtain rfl := Option.some.inj hw
      exact { h with }
  | register sock c =>
      rcases Option.ite_none_right_eq_some.1 hs with ⟨hhand, hw⟩
      obtain rfl := Option.some.inj hw
      exact accounted_register h hhand (by simpa [World.register] using hfew)
  | closeClient clientId =>
      obtain rfl := Option.some.inj hs
      exact accounted_closeClient h clientId
  | stop =>
      obtain rfl := Option.some.inj hs
      unfold World.stop
      split
      · exact { h with }
      · exact h
  | stopListening =>
      cases hphase : w.stopping with
      | listener =>
          simp only [serverStep, hphase, Option.some.injEq] at hs
          exact hs ▸ accounted_stopListening h
      | idle => simp [serverStep, hphase] at hs
      | clients => simp [serverStep, hphase] at hs
  | stopClients =>
      cases hphase : w.stopping with
      | clients =>
          simp only [serverStep, hphase, Option.some.injEq] at hs
          exact hs ▸ accounted_stopClients h
      | idle => simp [serverStep, hphase] at hs
      | listener => simp [serverStep, hphase] at hs
  | openOther sock =>
      rcases Option.ite_none_right_eq_some.1 hs with ⟨hfree, hw⟩
      obtain rfl := Option.some.inj hw
      refine h.update_other (by simp [hfree]) (by simp) fun hpos heq => ?_
      simp [← heq, h.listening hpos] at hfree
  | closeOther sock =>
      rcases Option.ite_none_right_eq_some.1 hs with ⟨hother, hw⟩
      obtain rfl := Option.some.inj hw
      refine h.update_other (by simp [hother]) (by simp) fun hpos heq => ?_
      simp [← heq, h.listening hpos] at hother

theorem registered_step {w w' : World} {l : ServerStep} (hs : serverStep w l = some w') :
    w.registered.length ≤ w'.registered.length := by
  have hclose : ∀ (w : World) n, (w.closeSocket n).registered = w.registered := by
    intro w n
    unfold World.closeSocket
    split <;> rfl
  cases l with
  | register sock c =>
      rcases Option.ite_none_right_eq_some.1 hs with ⟨_, hw⟩
      obtain rfl := Option.some.inj hw
      simp [World.register]
  | closeClient clientId =>
      obtain rfl := Option.some.inj hs
      unfold World.closeClient
      split
      · exact le_refl _
      · simp [hclose]
  | stop =>
      obtain rfl := Option.some.inj hs
      unfold World.stop
      split <;> exact le_refl _
  | stopListening =>
      cases hphase : w.stopping <;> simp only [serverStep, hphase, reduceCtorEq] at hs
      obtain rfl := Option.some.inj hs
      simp [World.stopListening, hclose]
  | stopClients =>
      cases hphase : w.stopping <;> simp only [serverStep, hphase, reduceCtorEq] at hs
      obtain rfl := Option.some.inj hs
      have hall : ∀ es w, (World.closeAll w es).registered = w.registered := by
        intro es
        induction es with
        | nil => exact fun _ => rfl
        | cons e es ih => exact fun w => (ih _).trans (hclose w _)
      simp [World.stopClients, hall]
  | enter | accept | acceptFails | openOther | closeOther =>
      rcases Option.ite_none_right_eq_some.1 hs with ⟨_, hw⟩
      obtain rfl := Option.some.inj hw
      exact le_refl _

theorem accounted_run {sock : Int} {tr : List (World × ServerStep)} {w : World}
    (h : Run serverStep (fun _ _ => True) (World.started sock) tr w)
    (hfew : w.registered.length < 2 ^ 31) : Accounted w := by
  induction h with
  | start => exact accounted_started sock
  | step _ _ hs ih => exact accounted_step (ih (lt_of_le_of_lt (registered_step hs) hfew)) hfew hs

/-- Whatever order `acceptClient`, `closeClient` and `stop` come in, and whichever free numbers
the operating system hands out: the entries have different sockets; the socket of an entry is the
open connection that was registered under its id; a connection that is open either has exactly one
entry or is still in the hands of the call that accepted it; every close call finds the listener or
a registered connection, and none is closed twice; and an id that was closed names nothing. -/
theorem registry_sound {sock : Int} {tr : List (World × ServerStep)} {w : World}
    (h : Run serverStep (fun _ _ => True) (World.started sock) tr w)
    (hfew : w.registered.length < 2 ^ 31) :
    (w.server.clients.entries.map fun e => e.2.socket).Nodup ∧
      (∀ e ∈ w.server.clients.entries, ∃ c, (e.1, c) ∈ w.registered ∧
        w.sockets e.2.socket = some (.connection c)) ∧
      (∀ n c, w.sockets n = some (.connection c) →
        ((n, c) ∈ w.inHand ∧ c ∉ w.registered.map Prod.snd) ∨
          ∃! e, e ∈ w.server.clients.entries ∧ w.sockets e.2.socket = some (.connection c)) ∧
      (w.closes.Nodup ∧ ∀ x ∈ w.closes, x = some .listener ∨
        ∃ c ∈ w.registered.map Prod.snd, x = some (.connection c)) ∧
      ∀ clientId ∈ w.retired, w.server.clients.find? clientId = none := by
  have hinv := accounted_run h hfew
  refine ⟨?_, ?_, ?_, ⟨hinv.closedOnce, ?_⟩, ?_⟩
  · refine List.pairwise_map.2 (w.server.clients.entries_nodup.imp_of_mem ?_)
    intro e e' he he' hne heq
    rcases hinv.entry e he with ⟨_, c, _, hsock⟩
    exact hne (hinv.entry_unique he he' hsock (heq ▸ hsock))
  · intro e he
    exact (hinv.entry e he).2
  · intro n c hn
    rcases hinv.held n c hn with hhand | ⟨e, he, rfl⟩
    · exact Or.inl ⟨hhand, (hinv.hand _ hhand).2.2⟩
    · exact Or.inr ⟨e, ⟨he, hn⟩, fun e' he' => hinv.entry_unique he'.1 he he'.2 hn⟩
  · intro x hx
    rcases hinv.closed x hx with ⟨hlistener, _⟩ | ⟨c, hc, heq, _⟩
    · exact Or.inl hlistener
    · exact Or.inr ⟨c, hc, heq⟩
  · intro clientId hid
    exact SortedMap.find?_eq_none.2 (hinv.retired clientId hid).2

/-- The ids that sending and receiving accept are those of the registered connections that are
still open. -/
theorem knows_iff {sock : Int} {tr : List (World × ServerStep)} {w : World}
    (h : Run serverStep (fun _ _ => True) (World.started sock) tr w)
    (hfew : w.registered.length < 2 ^ 31) (clientId : Nat) :
    w.server.view.knows clientId = true ↔
      ∃ c n, ((clientId : Int), c) ∈ w.registered ∧ w.sockets n = some (.connection c) := by
  have hinv := accounted_run h hfew
  unfold TCPServer.knows TCPServer.view
  dsimp only
  constructor
  · intro hknows
    cases hfind : w.server.clients.find? (clientId : Int) with
    | none => simp [hfind] at hknows
    | some ctx =>
        rcases hinv.entry _ (SortedMap.find?_eq_some.1 hfind) with ⟨_, c, hc, hsock⟩
        exact ⟨c, _, hc, hsock⟩
  · rintro ⟨c, n, hc, hsock⟩
    rcases hinv.held n c hsock with hhand | ⟨e, he, rfl⟩
    · exact absurd (List.mem_map_of_mem hc) (hinv.hand _ hhand).2.2
    · rcases hinv.entry e he with ⟨_, c', hc', hsock'⟩
      rw [hsock', Option.some.injEq, Holder.connection.injEq] at hsock
      subst hsock
      have hpair := List.inj_on_of_nodup_map hinv.connsNodup hc hc' rfl
      have hkey : (clientId : Int) = e.1 := (Prod.ext_iff.1 hpair).1
      have hfind : w.server.clients.find? (clientId : Int) = some e.2 := by
        rw [hkey]
        exact SortedMap.find?_eq_some.2 he
      simp [hfind, hinv.valid e he]

/-- Socket 5 is handed out again after its client was closed, and the last connection is registered
after `stop`. -/
def reusedSocket : List ServerStep :=
  [.enter, .enter, .accept 5, .accept 6, .register 5 0, .register 6 1, .closeClient 1, .enter,
    .stop, .closeClient 7, .stopListening, .stopClients, .accept 5, .register 5 2, .closeClient 1]

theorem registry_sound_reusedSocket :
    (Run.replayed serverStep (World.started 3) reusedSocket).2.server.clients.entries.map
        (fun e => e.1) = [3] ∧
      ((Run.replayed serverStep (World.started 3) reusedSocket).2.server.clients.entries.map
        fun e => e.2.socket).Nodup ∧
      ∀ clientId ∈ (Run.replayed serverStep (World.started 3) reusedSocket).2.retired,
        (Run.replayed serverStep (World.started 3) reusedSocket).2.server.clients.find?
          clientId = none := by
  have hrun : Run serverStep (fun _ _ => True) (World.started 3)
      (Run.replayed serverStep (World.started 3) reusedSocket).1
      (Run.replayed serverStep (World.started 3) reusedSocket).2 :=
    Run.of_replayed (by decide +kernel) fun _ _ => trivial
  have hsound := registry_sound hrun (by decide +kernel)
  exact ⟨by decide +kernel, hsound.1, hsound.2.2.2.2⟩

end Registry
end Network
end Dfs

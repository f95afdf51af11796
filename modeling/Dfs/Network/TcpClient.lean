import Dfs.Library.Transition
import Mathlib.Data.Int.Basic
import Mathlib.Data.List.Basic
import Mathlib.Logic.Function.Basic

/-!
# Client sockets

`TCPClient` objects with the sockets that the process has open.  Objects are created and destroyed
in many threads, the rest of the process opens and closes sockets of its own, and a number that is
not open may be handed out again at any time.  An object closes what it has opened, once and in
time, and nothing else.
-/

namespace Dfs
namespace Network
namespace Sockets

/-- What an open socket number refers to: the socket of the `c`-th object, or one of another part
of the process. -/
inductive Owner where
  | client (c : Nat)
  | other
  deriving DecidableEq

structure TCPClient where
  sock : Int
  connected : Bool
  deriving DecidableEq

/-- The constructor. -/
def TCPClient.make : TCPClient :=
  { sock := -1
    connected := false }

/-- The test with which `sendData` and `recvData` begin. -/
def TCPClient.usable (client : TCPClient) : Bool :=
  client.connected && 0 ≤ client.sock

/-- The objects alive, the calls of `connect` between `socket` and their end, and the open sockets,
with a record of what each `::close` of an object found open under its number. -/
structure World where
  sockets : Int → Option Owner
  clients : Nat → Option TCPClient
  connecting : Nat → Bool
  created : Nat
  closes : List (Nat × Option Owner)

def World.launch : World :=
  { sockets := fun _ => none
    clients := fun _ => none
    connecting := fun _ => false
    created := 0
    closes := [] }

namespace World

def setClient (w : World) (c : Nat) (client : Option TCPClient) : World :=
  { w with clients := Function.update w.clients c client }

/-- `::close(sock)` by the `c`-th object. -/
def closeSocket (w : World) (c : Nat) (sock : Int) : World :=
  { w with
    sockets := Function.update w.sockets sock none
    closes := w.closes ++ [(c, w.sockets sock)] }

/-- `close`. -/
def close (w : World) (c : Nat) (client : TCPClient) : World :=
  if client.usable then
    (w.closeSocket c client.sock).setClient c (some { sock := -1, connected := false })
  else w

/-- `connect` up to the return of `socket`, which gives a number or fails. -/
def openSocket (w : World) (c : Nat) : Option Int → World
  | none => w.setClient c (some { sock := -1, connected := false })
  | some sock =>
      { w.setClient c (some { sock := sock, connected := false }) with
        sockets := Function.update w.sockets sock (some (.client c))
        connecting := Function.update w.connecting c true }

end World

/-! ## Steps -/

inductive Label where
  | construct
  /-- `connect` calls `socket` -/
  | connect (c : Nat) (sock : Option Int)
  /-- `inet_pton` or `::connect` fails -/
  | connectFails (c : Nat)
  | connectDone (c : Nat)
  | close (c : Nat)
  | destruct (c : Nat)
  /-- another part of the process opens or closes a socket of its own -/
  | openOther (sock : Int)
  | closeOther (sock : Int)
  deriving DecidableEq

/-- The number is one that the operating system can give out. -/
def Free (w : World) : Option Int → Bool
  | none => true
  | some sock => 0 ≤ sock && w.sockets sock = none

def step (w : World) : Label → Option World
  | .construct =>
      some { w.setClient w.created (some TCPClient.make) with created := w.created + 1 }
  | .connect c sock =>
      match w.clients c with
      | none => none
      | some client =>
          if w.connecting c then none
          else
            let w' := if client.connected then w.close c client else w
            if Free w' sock then some (w'.openSocket c sock) else none
  | .connectFails c =>
      match w.clients c with
      | none => none
      | some client =>
          if w.connecting c then
            some
              { (w.closeSocket c client.sock).setClient c (some { client with sock := -1 }) with
                connecting := Function.update w.connecting c false }
          else none
  | .connectDone c =>
      match w.clients c with
      | none => none
      | some client =>
          if w.connecting c then
            some
              { w.setClient c (some { client with connected := true }) with
                connecting := Function.update w.connecting c false }
          else none
  | .close c =>
      match w.clients c with
      | none => none
      | some client => if w.connecting c then none else some (w.close c client)
  | .destruct c =>
      match w.clients c with
      | none => none
      | some client =>
          if w.connecting c then none else some ((w.close c client).setClient c none)
  | .openOther sock =>
      if 0 ≤ sock ∧ w.sockets sock = none then
        some { w with sockets := Function.update w.sockets sock (some .other) }
      else none
  | .closeOther sock =>
      if w.sockets sock = some .other then
        some { w with sockets := Function.update w.sockets sock none }
      else none

/-! ## The invariant -/

structure Owned (w : World) : Prop where
  own : ∀ c client, w.clients c = some client → 0 ≤ client.sock →
    w.sockets client.sock = some (.client c)
  /-- an open socket of an object is its current one -/
  held : ∀ n c, w.sockets n = some (.client c) →
    0 ≤ n ∧ ∃ client, w.clients c = some client ∧ client.sock = n
  flag : ∀ c client, w.clients c = some client → w.connecting c = false →
    (client.connected = true ↔ 0 ≤ client.sock)
  busy : ∀ c, w.connecting c = true → ∃ client, w.clients c = some client ∧
    client.connected = false ∧ 0 ≤ client.sock
  numbered : ∀ c client, w.clients c = some client → c < w.created
  /-- a close call finds the socket of its object -/
  closed : ∀ e ∈ w.closes, e.2 = some (.client e.1)

theorem owned_launch : Owned World.launch where
  own := by simp [World.launch]
  held := by simp [World.launch]
  flag := by simp [World.launch]
  busy := by simp [World.launch]
  numbered := by simp [World.launch]
  closed := by simp [World.launch]

section

variable {w : World} {c : Nat} {client : TCPClient}

/-- An object gives up its socket, and is left with none or goes away. -/
theorem Owned.release (h : Owned w) (hc : w.clients c = some client) (hsock : 0 ≤ client.sock)
    (next : Option TCPClient) (hnext : ∀ d, next = some d → d.sock = -1 ∧ d.connected = false) :
    Owned { (w.closeSocket c client.sock).setClient c next with
      connecting := Function.update w.connecting c false } := by
  have hown := h.own c client hc hsock
  -- The number is the object's own, so no other object has it.
  have hother : ∀ {n d}, w.sockets n = some (.client d) → d ≠ c → n ≠ client.sock := by
    rintro n d hn hd rfl
    rw [hown, Option.some.injEq, Owner.client.injEq] at hn
    exact hd hn.symm
  constructor
  · intro d other hd hpos
    by_cases hdc : d = c
    · subst hdc
      rcases hnext other (by simpa [World.setClient] using hd) with ⟨hnone, _⟩
      omega
    · have hd : w.clients d = some other := by
        simpa [World.setClient, World.closeSocket, hdc] using hd
      have hsame := h.own d other hd hpos
      simpa [World.setClient, World.closeSocket, hother hsame hdc] using hsame
  · intro n d hn
    have hne : n ≠ client.sock := by
      rintro rfl
      simp [World.setClient, World.closeSocket] at hn
    have hn : w.sockets n = some (.client d) := by
      simpa [World.setClient, World.closeSocket, hne] using hn
    rcases h.held n d hn with ⟨hpos, other, hd, hsame⟩
    have hdc : d ≠ c := by
      rintro rfl
      cases hc.symm.trans hd
      exact hne hsame.symm
    exact ⟨hpos, other, by simpa [World.setClient, World.closeSocket, hdc] using hd, hsame⟩
  · intro d other hd hidle
    by_cases hdc : d = c
    · subst hdc
      rcases hnext other (by simpa [World.setClient] using hd) with ⟨hnone, hfalse⟩
      simp [hnone, hfalse]
    · exact h.flag d other (by simpa [World.setClient, World.closeSocket, hdc] using hd)
        (by simpa [hdc] using hidle)
  · intro d hd
    by_cases hdc : d = c
    · simp [hdc] at hd
    · rcases h.busy d (by simpa [hdc] using hd) with ⟨other, hother, hspec⟩
      exact ⟨other, by simpa [World.setClient, World.closeSocket, hdc] using hother, hspec⟩
  · intro d other hd
    by_cases hdc : d = c
    · subst hdc
      exact h.numbered d client hc
    · exact h.numbered d other (by simpa [World.setClient, World.closeSocket, hdc] using hd)
  · intro e he
    rcases List.mem_append.1 he with he | he
    · exact h.closed e he
    · rw [List.mem_singleton.1 he]
      exact hown

theorem connecting_update (hidle : w.connecting c = false) :
    Function.update w.connecting c false = w.connecting := by
  rw [← hidle, Function.update_eq_self]

/-- `close` leaves the object without a socket. -/
theorem Owned.close (h : Owned w) (hc : w.clients c = some client)
    (hidle : w.connecting c = false) :
    Owned (w.close c client) ∧ (w.close c client).connecting = w.connecting ∧
      ∃ d, (w.close c client).clients c = some d ∧ d.sock < 0 ∧ d.connected = false := by
  have hflag := h.flag c client hc hidle
  unfold World.close
  by_cases husable : client.usable = true
  · rw [if_pos husable]
    have hsock : 0 ≤ client.sock := by
      simp only [TCPClient.usable, Bool.and_eq_true, decide_eq_true_eq] at husable
      exact husable.2
    have hrelease := h.release hc hsock (some { sock := -1, connected := false }) (by simp)
    rw [connecting_update hidle] at hrelease
    exact ⟨hrelease, rfl, { sock := -1, connected := false }, by simp [World.setClient],
      by decide, rfl⟩
  -- An object that is not connected has no number, so nothing is left open.
  · rw [if_neg husable]
    have hfalse : client.connected = false := by
      cases hconnected : client.connected with
      | false => rfl
      | true => simp [TCPClient.usable, hconnected, hflag.1 hconnected] at husable
    refine ⟨h, rfl, client, hc, ?_, hfalse⟩
    by_contra hpos
    rw [hflag.2 (Int.not_lt.1 hpos)] at hfalse
    cases hfalse

/-- An object that has no socket stays without one, or goes away. -/
theorem Owned.reset (h : Owned w) (hc : w.clients c = some client) (hsock : client.sock < 0)
    (hidle : w.connecting c = false) (next : Option TCPClient)
    (hnext : ∀ d, next = some d → d.sock = -1 ∧ d.connected = false) :
    Owned (w.setClient c next) := by
  constructor
  · intro d other hd hpos
    by_cases hdc : d = c
    · subst hdc
      rcases hnext other (by simpa [World.setClient] using hd) with ⟨hnone, _⟩
      omega
    · exact h.own d other (by simpa [World.setClient, hdc] using hd) hpos
  · intro n d hn
    rcases h.held n d hn with ⟨hpos, other, hd, hsame⟩
    have hdc : d ≠ c := by
      rintro rfl
      cases hc.symm.trans hd
      omega
    exact ⟨hpos, other, by simpa [World.setClient, hdc] using hd, hsame⟩
  · intro d other hd hquiet
    by_cases hdc : d = c
    · subst hdc
      rcases hnext other (by simpa [World.setClient] using hd) with ⟨hnone, hfalse⟩
      simp [hnone, hfalse]
    · exact h.flag d other (by simpa [World.setClient, hdc] using hd) hquiet
  · intro d hd
    by_cases hdc : d = c
    · subst hdc
      cases hidle.symm.trans hd
    · rcases h.busy d hd with ⟨other, hother, hspec⟩
      exact ⟨other, by simpa [World.setClient, hdc] using hother, hspec⟩
  · intro d other hd
    by_cases hdc : d = c
    · subst hdc
      exact h.numbered d client hc
    · exact h.numbered d other (by simpa [World.setClient, hdc] using hd)
  · exact h.closed

/-- `socket` has given a number that was not open to an object that has none. -/
theorem Owned.openSocket (h : Owned w) (hc : w.clients c = some client) (hsock : client.sock < 0)
    (hidle : w.connecting c = false) {sock : Option Int} (hfree : Free w sock = true) :
    Owned (w.openSocket c sock) := by
  cases sock with
  | none => exact h.reset hc hsock hidle _ (by simp)
  | some n =>
      simp only [Free, Bool.and_eq_true, decide_eq_true_eq] at hfree
      rcases hfree with ⟨hn, hnew⟩
      -- The number was not open, so no object has it yet.
      have hother : ∀ {d other}, w.clients d = some other → 0 ≤ other.sock → other.sock ≠ n := by
        rintro d other hd hpos rfl
        cases hnew.symm.trans (h.own d other hd hpos)
      constructor
      · intro d other hd hpos
        by_cases hdc : d = c
        · subst hdc
          have heq : other = { sock := n, connected := false } := by
            simpa [World.openSocket, World.setClient, eq_comm] using hd
          simp [World.openSocket, heq]
        · have hd : w.clients d = some other := by
            simpa [World.openSocket, World.setClient, hdc] using hd
          simpa [World.openSocket, World.setClient, hother hd hpos] using h.own d other hd hpos
      · intro m d hm
        by_cases hmn : m = n
        · subst hmn
          have hdc : c = d := by simpa [World.openSocket] using hm
          subst hdc
          exact ⟨hn, { sock := m, connected := false },
            by simp [World.openSocket, World.setClient], rfl⟩
        · rcases h.held m d (by simpa [World.openSocket, World.setClient, hmn] using hm) with
            ⟨hpos, other, hd, hsame⟩
          have hdc : d ≠ c := by
            rintro rfl
            cases hc.symm.trans hd
            omega
          exact ⟨hpos, other, by simpa [World.openSocket, World.setClient, hdc] using hd, hsame⟩
      · intro d other hd hquiet
        by_cases hdc : d = c
        · simp [World.openSocket, hdc] at hquiet
        · exact h.flag d other (by simpa [World.openSocket, World.setClient, hdc] using hd)
            (by simpa [World.openSocket, World.setClient, hdc] using hquiet)
      · intro d hd
        by_cases hdc : d = c
        · subst hdc
          exact ⟨{ sock := n, connected := false }, by simp [World.openSocket, World.setClient],
            rfl, hn⟩
        · rcases h.busy d (by simpa [World.openSocket, World.setClient, hdc] using hd) with
            ⟨other, hother, hspec⟩
          exact ⟨other, by simpa [World.openSocket, World.setClient, hdc] using hother, hspec⟩
      · intro d other hd
        by_cases hdc : d = c
        · subst hdc
          exact h.numbered d client hc
        · exact h.numbered d other (by simpa [World.openSocket, World.setClient, hdc] using hd)
      · exact h.closed

/-- The end of a `connect` that succeeds. -/
theorem Owned.connected (h : Owned w) (hc : w.clients c = some client) (hsock : 0 ≤ client.sock) :
    Owned { w.setClient c (some { client with connected := true }) with
      connecting := Function.update w.connecting c false } := by
  -- Only the flag of this object changes.
  have hback : ∀ {d other}, Function.update w.clients c (some { client with connected := true }) d =
      some other → ∃ before, w.clients d = some before ∧ before.sock = other.sock ∧
        (d ≠ c → before = other) := by
    intro d other hd
    by_cases hdc : d = c
    · subst hdc
      rw [Function.update_self, Option.some.injEq] at hd
      exact ⟨client, hc, hd ▸ rfl, fun hne => absurd rfl hne⟩
    · rw [Function.update_of_ne hdc] at hd
      exact ⟨other, hd, rfl, fun _ => rfl⟩
  constructor
  · intro d other hd hpos
    rcases hback hd with ⟨before, hbefore, hsame, _⟩
    rw [← hsame] at hpos ⊢
    exact h.own d before hbefore hpos
  · intro n d hn
    rcases h.held n d hn with ⟨hpos, other, hd, hsame⟩
    by_cases hdc : d = c
    · subst hdc
      cases hc.symm.trans hd
      exact ⟨hpos, { client with connected := true }, by simp [World.setClient], hsame⟩
    · exact ⟨hpos, other, by simpa [World.setClient, hdc] using hd, hsame⟩
  · intro d other hd hquiet
    by_cases hdc : d = c
    · subst hdc
      have heq : other = { client with connected := true } := by
        simpa [World.setClient, eq_comm] using hd
      simp [heq, hsock]
    · exact h.flag d other (by simpa [World.setClient, hdc] using hd) (by simpa [hdc] using hquiet)
  · intro d hd
    by_cases hdc : d = c
    · simp [hdc] at hd
    · rcases h.busy d (by simpa [hdc] using hd) with ⟨other, hother, hspec⟩
      exact ⟨other, by simpa [World.setClient, hdc] using hother, hspec⟩
  · intro d other hd
    rcases hback hd with ⟨before, hbefore, _, _⟩
    exact h.numbered d before hbefore
  · exact h.closed

/-- The rest of the process opens and closes sockets that no object has. -/
theorem Owned.others (h : Owned w) {n : Int} {owner : Option Owner}
    (hbefore : ∀ c, w.sockets n ≠ some (.client c)) (howner : ∀ c, owner ≠ some (.client c)) :
    Owned { w with sockets := Function.update w.sockets n owner } := by
  refine ⟨?_, ?_, h.flag, h.busy, h.numbered, h.closed⟩
  · intro c client hc hpos
    have hown := h.own c client hc hpos
    have hne : client.sock ≠ n := by
      rintro rfl
      exact hbefore c hown
    simpa [hne] using hown
  · intro m c hm
    by_cases hmn : m = n
    · subst hmn
      exact absurd (by simpa using hm) (howner c)
    · exact h.held m c (by simpa [hmn] using hm)

/-- A new object has no socket. -/
theorem Owned.construct (h : Owned w) :
    Owned { w.setClient w.created (some TCPClient.make) with created := w.created + 1 } := by
  have hfresh : w.clients w.created = none := by
    cases hclient : w.clients w.created with
    | none => rfl
    | some client => exact absurd (h.numbered _ client hclient) (Nat.lt_irrefl _)
  have hnew : ∀ {d other}, w.clients d = some other → d ≠ w.created := by
    rintro d other hd rfl
    cases hfresh.symm.trans hd
  constructor
  · intro d other hd hpos
    by_cases hdc : d = w.created
    · have heq : other = TCPClient.make := by
        simpa [World.setClient, hdc, eq_comm] using hd
      rw [heq] at hpos
      exact absurd hpos (by decide)
    · exact h.own d other (by simpa [World.setClient, hdc] using hd) hpos
  · intro n d hn
    rcases h.held n d hn with ⟨hpos, other, hd, hsame⟩
    exact ⟨hpos, other, by simpa [World.setClient, hnew hd] using hd, hsame⟩
  · intro d other hd hquiet
    by_cases hdc : d = w.created
    · have heq : other = TCPClient.make := by
        simpa [World.setClient, hdc, eq_comm] using hd
      simp [heq, TCPClient.make]
    · exact h.flag d other (by simpa [World.setClient, hdc] using hd) hquiet
  · intro d hd
    rcases h.busy d hd with ⟨other, hother, hspec⟩
    exact ⟨other, by simpa [World.setClient, hnew hother] using hother, hspec⟩
  · intro d other hd
    by_cases hdc : d = w.created
    · exact hdc ▸ Nat.lt_succ_self _
    · have hlt := h.numbered d other (by simpa [World.setClient, hdc] using hd)
      exact Nat.lt_succ_of_lt hlt
  · exact h.closed

theorem Owned.step {w' : World} {l : Label} (h : Owned w) (hs : step w l = some w') : Owned w' := by
  cases l with
  | construct =>
      simp only [Sockets.step, Option.some.injEq] at hs
      exact hs ▸ h.construct
  | openOther sock =>
      simp only [Sockets.step, Option.ite_none_right_eq_some, Option.some.injEq] at hs
      rcases hs with ⟨⟨_, hfree⟩, rfl⟩
      exact h.others (by simp [hfree]) (by simp)
  | closeOther sock =>
      simp only [Sockets.step, Option.ite_none_right_eq_some, Option.some.injEq] at hs
      rcases hs with ⟨hother, rfl⟩
      exact h.others (by simp [hother]) (by simp)
  | connect c sock =>
      cases hc : w.clients c with
      | none => simp [Sockets.step, hc] at hs
      | some client =>
          simp only [Sockets.step, hc] at hs
          cases hidle : w.connecting c with
          | true => simp [hidle] at hs
          | false =>
              simp only [hidle, Bool.false_eq_true, if_false, Option.ite_none_right_eq_some,
                Option.some.injEq] at hs
              rcases hs with ⟨hfree, rfl⟩
              -- A connected object closes its socket first; any other has none.
              by_cases hconnected : client.connected = true
              · rw [if_pos hconnected] at hfree ⊢
                rcases h.close hc hidle with ⟨hclosed, hsame, d, hd, hsock, _⟩
                exact hclosed.openSocket hd hsock (hsame ▸ hidle) hfree
              · rw [if_neg hconnected] at hfree ⊢
                have hsock : client.sock < 0 :=
                  Int.not_le.1 fun hpos => hconnected ((h.flag c client hc hidle).2 hpos)
                exact h.openSocket hc hsock hidle hfree
  | connectFails c =>
      cases hc : w.clients c with
      | none => simp [Sockets.step, hc] at hs
      | some client =>
          simp only [Sockets.step, hc, Option.ite_none_right_eq_some, Option.some.injEq] at hs
          rcases hs with ⟨hbusy, rfl⟩
          rcases h.busy c hbusy with ⟨d, hd, hfalse, hsock⟩
          cases hc.symm.trans hd
          exact h.release hc hsock _ (by simp [hfalse])
  | connectDone c =>
      cases hc : w.clients c with
      | none => simp [Sockets.step, hc] at hs
      | some client =>
          simp only [Sockets.step, hc, Option.ite_none_right_eq_some, Option.some.injEq] at hs
          rcases hs with ⟨hbusy, rfl⟩
          rcases h.busy c hbusy with ⟨d, hd, _, hsock⟩
          cases hc.symm.trans hd
          exact h.connected hc hsock
  | close c =>
      cases hc : w.clients c with
      | none => simp [Sockets.step, hc] at hs
      | some client =>
          cases hidle : w.connecting c with
          | true => simp [Sockets.step, hc, hidle] at hs
          | false =>
              simp only [Sockets.step, hc, hidle, Bool.false_eq_true, if_false,
                Option.some.injEq] at hs
              exact hs ▸ (h.close hc hidle).1
  | destruct c =>
      cases hc : w.clients c with
      | none => simp [Sockets.step, hc] at hs
      | some client =>
          cases hidle : w.connecting c with
          | true => simp [Sockets.step, hc, hidle] at hs
          | false =>
              simp only [Sockets.step, hc, hidle, Bool.false_eq_true, if_false,
                Option.some.injEq] at hs
              rcases h.close hc hidle with ⟨hclosed, hsame, d, hd, hsock, _⟩
              exact hs ▸ hclosed.reset hd hsock (hsame ▸ hidle) none (by simp)

end

/-- In every run an object that is not inside `connect` is connected exactly when it has a socket
number; the open sockets of objects are the current ones of objects that are alive, so nothing
leaks; what `sendData` and `recvData` use is the object's own socket; and every close call of an
object finds its own open socket, never a number that has been given to somebody else. -/
theorem clients_keep_to_their_sockets (tr : List (World × Label)) (w : World)
    (h : Run step (fun _ _ => True) World.launch tr w) :
    (∀ c client, w.clients c = some client → w.connecting c = false →
      (client.connected = true ↔ 0 ≤ client.sock)) ∧
    (∀ n c, w.sockets n = some (.client c) ↔
      0 ≤ n ∧ ∃ client, w.clients c = some client ∧ client.sock = n) ∧
    (∀ c client, w.clients c = some client → client.usable = true →
      w.sockets client.sock = some (.client c)) ∧
    ∀ e ∈ w.closes, e.2 = some (.client e.1) := by
  have howned : Owned w := h.state_invariant owned_launch fun _ _ _ _ _ hI _ hs => hI.step hs
  refine ⟨howned.flag, ?_, ?_, howned.closed⟩
  · intro n c
    refine ⟨howned.held n c, ?_⟩
    rintro ⟨hpos, client, hc, rfl⟩
    exact howned.own c client hc hpos
  · intro c client hc husable
    simp only [TCPClient.usable, Bool.and_eq_true, decide_eq_true_eq] at husable
    exact howned.own c client hc husable.2

/-- A number that a closed connection had goes to another object, which loses its connection and
connects again. -/
def reusedNumber : List Label :=
  [.construct, .construct, .connect 0 (some 3), .connectDone 0, .close 0, .connect 1 (some 3),
    .connectFails 1, .openOther 3, .connect 1 (some 4), .connectDone 1, .close 0, .destruct 0]

theorem clients_keep_to_their_sockets_reused :
    (Run.replayed step World.launch reusedNumber).2.closes =
      [(0, some (.client 0)), (1, some (.client 1))] ∧
    ∀ n c, (Run.replayed step World.launch reusedNumber).2.sockets n = some (.client c) →
      ∃ client, (Run.replayed step World.launch reusedNumber).2.clients c = some client ∧
        client.sock = n := by
  have h : Run step (fun _ _ => True) World.launch
      (Run.replayed step World.launch reusedNumber).1
      (Run.replayed step World.launch reusedNumber).2 :=
    Run.of_replayed (by decide +kernel) fun _ _ => trivial
  refine ⟨by decide +kernel, fun n c hn => ?_⟩
  exact (((clients_keep_to_their_sockets _ _ h).2.1 n c).1 hn).2

end Sockets
end Network
end Dfs

/-
Moruna/Net/Stack.lean

The stack's sockets and the endpoints they hold (`net/stack/src/stack.rs`): `free_port`,
`listen`, `bind`, the life of a TCP connection down to its orphan, and `grant`.

Three records say what is in use: `listening`, `udp_bound`, and `tcp_local` with a count.
`Table.Inv` says that nothing is held more often than it is recorded; every request keeps
it (`step_inv`, `run_inv`).

What a free port avoids is then what the sockets of its own protocol hold
(`freePort_spec`, `openLocal_spec`).  **A listener's port is not kept clear of UDP
sockets, nor a UDP socket's of TCP ones** (`listen_shares_udp`).
-/
import Mathlib.Data.Prod.Lex
import Mathlib.Logic.Relation
import Moruna.Lib.OrdMap
import Moruna.Net.Policy

namespace Moruna.Net

open List

/-! ### The table of sockets -/

/-- A socket's number: its connection's, then its own within it. -/
abbrev SockId := ℕ ×ₗ ℕ

/-- `Sock`.  A listener's half-open and queued connections are counted. -/
inductive Sock where
  | tcp (localEnd : Endpoint)
  | listener (e : Endpoint) (waiting : ℕ)
  | udp (e : Endpoint)
  deriving DecidableEq

/-- The sockets, and the records of the endpoints in use. -/
structure Table where
  sockets : OrdMap SockId Sock
  orphans : List Endpoint
  listening : Finset Endpoint
  udpBound : Finset Endpoint
  tcpLocal : Endpoint → ℕ

namespace Table

variable (t : Table)

/-- The record of UDP sockets or of TCP listeners. -/
def taken (udp : Bool) : Finset Endpoint := if udp then t.udpBound else t.listening

def setTaken (udp : Bool) (es : Finset Endpoint) : Table :=
  if udp then { t with udpBound := es } else { t with listening := es }

/-- `n` more connections at `e`. -/
def bump (e : Endpoint) (n : ℕ) : Table :=
  { t with tcpLocal := Function.update t.tcpLocal e (t.tcpLocal e + n) }

/-- `used` of `free_port`. -/
def used (udp : Bool) (e : Endpoint) : Bool :=
  if udp then decide (e ∈ t.udpBound) else decide (e ∈ t.listening) || decide (0 < t.tcpLocal e)

def retire : Sock → Table
  | .tcp e => { t with orphans := t.orphans ++ [e] }
  | .listener e waiting =>
      let t := { t with listening := t.listening.erase e }.bump e waiting
      { t with orphans := t.orphans ++ List.replicate waiting e }
  | .udp e => { t with udpBound := t.udpBound.erase e }

/-- `close`, and the end of an open that failed. -/
def close (k : SockId) : Table :=
  match t.sockets.get k with
  | none => t
  | some sock => { t with sockets := t.sockets.erase k }.retire sock

/-- `service_orphans` removes one orphan whose close is done (`unbind_tcp`). -/
def orphanDone (e : Endpoint) : Table :=
  if e ∈ t.orphans then
    { t with
      orphans := t.orphans.erase e
      tcpLocal := Function.update t.tcpLocal e (t.tcpLocal e - 1) }
  else t

/-- The listener `k` has `n` connections waiting. -/
def setWaiting (k : SockId) (n : ℕ) : Table :=
  { t with sockets := t.sockets.modify k fun
      | .listener e _ => .listener e n
      | sock => sock }

end Table

/-! ### The stack -/

structure Conn where
  policy : Policy
  next : ℕ
  resolving : ℕ

structure Stack where
  conns : OrdMap ℕ Conn
  table : Table
  grants : List Policy
  nextPort : ℕ

/-- What the interfaces and the socket sets answer a request. -/
structure Answers where
  iface : Bool
  room : Bool
  made : Bool

namespace Stack

def new (nextPort : ℕ) : Stack := ⟨.empty, ⟨.empty, [], ∅, ∅, fun _ => 0⟩, [], nextPort⟩

def policy (s : Stack) (conn : ℕ) : Policy :=
  ((s.conns.get conn).map (·.policy)).getD ⟨0, [], [], [], 0⟩

variable (s : Stack) (conn : ℕ)

def held : Except Error Unit :=
  match s.conns.get conn with
  | none => .error .noSocket
  | some c =>
      rejectIf (c.policy.sockets
        ≤ (s.table.sockets.keys.filter fun k => (ofLex k).1 = conn).length + c.resolving) .tooMany

def ephemeralFirst : ℕ := 49152

/-- One range of `free_port`: its ports from `next_port` on, around. -/
def scan (addr : Addr) (udp : Bool) (lo hi : ℕ) : Option ℕ :=
  if hi < lo then none
  else
    let span := hi - lo + 1
    ((List.range (min span 65536)).map fun k => lo + (s.nextPort % span + k) % span).find?
      fun port => !s.table.used udp ⟨addr, port⟩

/-- `free_port`: in each range the ephemeral ports first, where the range reaches them. -/
def freePort (addr : Addr) (udp : Bool) (policy : Option Policy) : Option (ℕ × Stack) :=
  let ranges := match policy with
    | some p => (p.localRulesFor addr).map fun (r : Rule) => (max r.first 1, r.last)
    | none => [(ephemeralFirst, 65535)]
  let found := ranges.findSome? fun (first, last) =>
    let lo := if ephemeralFirst ≤ last then max first ephemeralFirst else first
    (s.scan addr udp lo last).or (s.scan addr udp first last)
  found.map fun port => (port, { s with nextPort := max ((s.nextPort + 1) % 65536) 1 })

def insert (s : Stack) (conn : ℕ) (sock : Sock) : ℕ × Stack :=
  match s.conns.get conn with
  | none => (0, s)
  | some c =>
      (c.next, { s with
        conns := s.conns.insert conn { c with next :=
          if c.next + 1 < 2 ^ 32 then c.next + 1 else 1 }
        table := { s.table with sockets := s.table.sockets.insert (toLex (conn, c.next)) sock } })

/-- `insert` of a connection, counted at its local endpoint. -/
def insertTcp (e : Endpoint) : Stack :=
  ({ s with table := s.table.bump e 1 }.insert conn (.tcp e)).2

def startTcp (src : Addr) (a : Answers) : Stack :=
  if a.room then
    match s.freePort src false none with
    | none => s
    | some (port, s) => if a.made then s.insertTcp conn ⟨src, port⟩ else s
  else s

/-- The socket that `bind` or `listen` makes. -/
def localSock (udp : Bool) (e : Endpoint) : Sock := if udp then .udp e else .listener e 0

/-- What `listen` and `bind` share: the checks, the port and the socket. -/
def openLocal (udp : Bool) (conn : ℕ) (e : Endpoint) (a : Answers) :
    Stack × Except Error (ℕ × Endpoint) :=
  let p := s.policy conn
  let right := if udp then udpRight else listenRight
  let may := if udp then p.mayBind e else p.mayListen e
  let checks : Except Error Unit := do
    rejectIf (¬ e.addr.isHost) .badAddress
    rejectIf (¬ p.has right ∨ (e.port ≠ 0 ∧ ¬ may) ∨ ¬ p.mayUseSource e.addr) .notPermitted
    rejectIf (¬ a.iface) .badAddress
    s.held conn
    rejectIf (¬ a.room) .tooMany
  match checks with
  | .error err => (s, .error err)
  | .ok _ =>
      match if e.port = 0 then s.freePort e.addr udp (some p) else some (e.port, s) with
      | none => (s, .error .addressInUse)
      | some (port, s) =>
          let e : Endpoint := ⟨e.addr, port⟩
          if e ∈ s.table.taken udp then (s, .error .addressInUse)
          else if a.made then
            let s := { s with table := s.table.setTaken udp (Insert.insert e (s.table.taken udp)) }
            let (id, s) := s.insert conn (localSock udp e)
            (s, .ok (id, e))
          else (s, .error .badAddress)

def backlogMax : ℕ := 128

def listen (e : Endpoint) (backlog : ℕ) (a : Answers) :
    Stack × Except Error (ℕ × Endpoint) :=
  if backlog = 0 ∨ backlogMax < backlog then (s, .error .badArgument)
  else s.openLocal false conn e a

def bind (e : Endpoint) (a : Answers) : Stack × Except Error (ℕ × Endpoint) :=
  s.openLocal true conn e a

/-- `accept` of a connection that waits: its socket says which local endpoint it has. -/
def accept (conn id : ℕ) (localEnd : Endpoint) : Stack :=
  match s.table.sockets.get (toLex (conn, id)), s.held conn with
  | some (.listener _ (n + 1)), .ok _ =>
      { s with table := s.table.setWaiting (toLex (conn, id)) n }.insertTcp conn localEnd
  | _, _ => s

def connectionClosed : Stack :=
  { s with
    conns := s.conns.erase conn
    table := (s.table.sockets.keys.filter fun k => (ofLex k).1 = conn).foldl
      Table.close s.table }

def grant (s : Stack) (conn : ℕ) (child : Policy) : Except Error Stack := do
  rejectIf (¬ (s.policy conn).has grantRight) .notPermitted
  child.validate
  rejectIf (¬ (s.policy conn).covers child) .notPermitted
  pure { s with grants := s.grants ++ [child] }

/-- One request, or one thing the network does. -/
inductive Op where
  | connection (conn : ℕ) (policy : Policy)
  | resolving (conn n : ℕ)
  | startTcp (conn : ℕ) (src : Addr) (a : Answers)
  | listen (conn : ℕ) (e : Endpoint) (backlog : ℕ) (a : Answers)
  | bind (conn : ℕ) (e : Endpoint) (a : Answers)
  | waiting (conn id n : ℕ)
  | accept (conn id : ℕ) (localEnd : Endpoint)
  | close (conn id : ℕ)
  | connectionClosed (conn : ℕ)
  | orphanDone (e : Endpoint)
  | grant (conn : ℕ) (child : Policy)

def step : Op → Stack
  | .connection conn p =>
      if (s.conns.get conn).isSome then s else { s with conns := s.conns.insert conn ⟨p, 1, 0⟩ }
  | .resolving conn n => { s with conns := s.conns.modify conn fun c => { c with resolving := n } }
  | .startTcp conn src a => s.startTcp conn src a
  | .listen conn e backlog a => (s.listen conn e backlog a).1
  | .bind conn e a => (s.bind conn e a).1
  | .waiting conn id n => { s with table := s.table.setWaiting (toLex (conn, id)) n }
  | .accept conn id e => s.accept conn id e
  | .close conn id => { s with table := s.table.close (toLex (conn, id)) }
  | .connectionClosed conn => s.connectionClosed conn
  | .orphanDone e => { s with table := s.table.orphanDone e }
  | .grant conn child => (s.grant conn child).toOption.getD s

def run (ops : List Op) : Stack := ops.foldl step s

end Stack

/-! ### The records hold what the sockets do -/

/-- In which record an endpoint is held. -/
inductive Kind where
  | conn | listener | udp
  deriving DecidableEq

/-- How a socket holds its endpoint. -/
def Sock.hold : Sock → Kind × Endpoint
  | .tcp e => (.conn, e)
  | .listener e _ => (.listener, e)
  | .udp e => (.udp, e)

@[simp] theorem Sock.hold_tcp (e : Endpoint) : (Sock.tcp e).hold = (.conn, e) := rfl

@[simp] theorem Sock.hold_listener (e : Endpoint) (n : ℕ) :
    (Sock.listener e n).hold = (.listener, e) := rfl

@[simp] theorem Sock.hold_udp (e : Endpoint) : (Sock.udp e).hold = (.udp, e) := rfl

namespace Table

variable {t : Table}

/-- An endpoint counts once in a set of them. -/
def mark (es : Finset Endpoint) (e : Endpoint) : ℕ := if e ∈ es then 1 else 0

variable {e : Endpoint}

theorem mark_insert {es : Finset Endpoint} (h : e ∉ es) (f : Endpoint) :
    mark (Insert.insert e es) f = mark es f + if e = f then 1 else 0 := by
  unfold mark
  by_cases hf : e = f
  · subst hf
    simp [h]
  · simp [hf, Ne.symm hf]

theorem mark_erase (es : Finset Endpoint) (e f : Endpoint) :
    mark (es.erase e) f = mark es f - if e = f then 1 else 0 := by
  unfold mark
  by_cases hf : e = f
  · subst hf
    by_cases he : e ∈ es <;> simp [he]
  · simp [hf, Ne.symm hf]

def record (t : Table) : Kind → Endpoint → ℕ
  | .conn => t.tcpLocal
  | .listener => mark t.listening
  | .udp => mark t.udpBound

/-- The sockets at `e`, and the orphans with the connections. -/
def held (t : Table) (k : Kind) (e : Endpoint) : ℕ :=
  t.sockets.sum (fun _ sock => if sock.hold = (k, e) then 1 else 0)
    + if k = .conn then t.orphans.count e else 0

/-- Nothing is held that is not recorded; so no two listeners and no two UDP sockets are at
one endpoint. -/
def Inv (t : Table) : Prop := ∀ k e, t.held k e ≤ t.record k e

theorem record_bump (t : Table) (e : Endpoint) (n : ℕ) (k : Kind) (f : Endpoint) :
    (t.bump e n).record k f = t.record k f + if (Kind.conn, e) = (k, f) then n else 0 := by
  rcases k with _ | _ | _
  · by_cases hf : e = f
    · subst hf
      simp [record, bump]
    · simp [record, bump, hf, Ne.symm hf]
  · rfl
  · rfl

/-- An endpoint enters the record of the listeners or of the UDP sockets. -/
theorem record_setTaken {u : Bool} (hnew : e ∉ t.taken u) (k : Kind)
    (f : Endpoint) : (t.setTaken u (Insert.insert e (t.taken u))).record k f
      = t.record k f + if (Stack.localSock u e).hold = (k, f) then 1 else 0 := by
  cases u <;> rcases k with _ | _ | _
  · rfl
  · exact (mark_insert hnew f).trans (by simp [Stack.localSock, record, taken])
  · rfl
  · rfl
  · rfl
  · exact (mark_insert hnew f).trans (by simp [Stack.localSock, record, taken])

/-- Taking a socket out and retiring it: what leaves the table leaves its record, or is
among the orphans. -/
theorem Inv.close (h : t.Inv) (j : SockId) : (t.close j).Inv := by
  unfold Table.close
  rcases hj : t.sockets.get j with _ | sock
  · exact h
  intro k e
  have hsum := OrdMap.sum_erase hj fun _ x => if x.hold = (k, e) then 1 else 0
  have hle := h k e
  unfold held at hle ⊢
  rcases sock with l | ⟨l, n⟩ | l <;> rcases k with _ | _ | _ <;> by_cases he : l = e <;>
    simp only [retire, bump, record, mark_erase, Function.update_apply, @eq_comm _ e l,
      Sock.hold_tcp, Sock.hold_listener, Sock.hold_udp, Prod.mk.injEq, reduceCtorEq, true_and,
      false_and, he, if_true, if_false, count_append, count_singleton,
      count_replicate, beq_iff_eq] at hsum hle ⊢ <;> omega

theorem Inv.orphanDone (h : t.Inv) (e : Endpoint) : (t.orphanDone e).Inv := by
  unfold Table.orphanDone
  split
  · rename_i hmem
    intro k f
    have hle := h k f
    have hpos := count_pos_iff.mpr hmem
    rcases k with _ | _ | _
    · by_cases hf : f = e
      · subst hf
        simp only [held, record, if_true, count_erase_self, Function.update_self] at hle ⊢
        omega
      · simpa [held, record, count_erase_of_ne hf, hf] using hle
    · exact hle
    · exact hle
  · exact h

theorem Inv.setWaiting (h : t.Inv) (j : SockId) (n : ℕ) : (t.setWaiting j n).Inv := by
  intro k e
  refine le_trans (Nat.add_le_add_right (le_of_eq ?_) _) (h k e)
  unfold Table.setWaiting
  dsimp only
  apply OrdMap.sum_modify_of_eq
  intro x
  cases x <;> rfl

end Table

namespace Stack

variable {s : Stack}
variable {t : Table} {addr : Addr} {udp : Bool} {port : ℕ} {s' : Stack}

/-- A socket enters the table, whose records have gained it. -/
theorem insert_inv (h : t.Inv) {conn : ℕ} {sock : Sock}
    (hs : s.table.sockets = t.sockets) (ho : s.table.orphans = t.orphans)
    (hrec : ∀ k e, s.table.record k e = t.record k e + if sock.hold = (k, e) then 1 else 0) :
    (s.insert conn sock).2.table.Inv := by
  intro k e
  have hle := h k e
  have hr := hrec k e
  unfold Stack.insert
  split
  · unfold Table.held at hle ⊢
    dsimp only
    rw [hs, ho]
    omega
  · rename_i c hc
    have hsum := t.sockets.sum_insert (toLex (conn, c.next)) sock fun _ x =>
      if x.hold = (k, e) then 1 else 0
    show (s.table.sockets.insert _ sock).sum _ + (if k = .conn then s.table.orphans.count e else 0)
      ≤ s.table.record k e
    unfold Table.held at hle
    rw [hs, ho]
    omega

theorem insertTcp_inv (h : s.table.Inv) (conn : ℕ) (e : Endpoint) :
    (s.insertTcp conn e).table.Inv :=
  insert_inv h rfl rfl (Table.record_bump s.table e 1)

theorem freePort_table {p : Option Policy}
    (h : s.freePort addr udp p = some (port, s')) : s'.table = s.table := by
  obtain ⟨_, _, heq⟩ := Option.map_eq_some_iff.mp h
  cases heq
  rfl

theorem startTcp_inv (h : s.table.Inv) (conn : ℕ) (src : Addr) (a : Answers) :
    (s.startTcp conn src a).table.Inv := by
  unfold startTcp
  split
  · split
    · exact h
    rename_i port s' hport
    have h' : s'.table.Inv := by
      rw [freePort_table hport]
      exact h
    split
    · exact insertTcp_inv h' _ _
    · exact h'
  · exact h

theorem openLocal_inv (h : s.table.Inv) (udp : Bool) (conn : ℕ) (e : Endpoint) (a : Answers) :
    (s.openLocal udp conn e a).1.table.Inv := by
  unfold openLocal
  dsimp only
  split
  · exact h
  split
  · exact h
  rename_i port s' hport
  have h' : s'.table.Inv := by
    split at hport
    · rw [freePort_table hport]
      exact h
    · cases hport
      exact h
  split
  · exact h'
  rename_i hmem
  split
  · refine insert_inv h' ?_ ?_ (Table.record_setTaken hmem)
    · cases udp <;> rfl
    · cases udp <;> rfl
  · exact h'

theorem foldl_close_inv (h : t.Inv) (ks : List SockId) :
    (ks.foldl Table.close t).Inv := by
  induction ks generalizing t with
  | nil => exact h
  | cons k ks ih => exact ih (h.close k)

/-- **Every request keeps the records**. -/
theorem step_inv (h : s.table.Inv) (op : Op) : (s.step op).table.Inv := by
  cases op with
  | connection conn p =>
    simp only [step]
    split <;> exact h
  | resolving conn n => exact h
  | startTcp conn src a => exact startTcp_inv h conn src a
  | listen conn e backlog a =>
    show (s.listen conn e backlog a).1.table.Inv
    unfold listen
    split_ifs
    · exact h
    · exact openLocal_inv h _ _ _ _
  | bind conn e a => exact openLocal_inv h _ _ _ _
  | waiting conn id n => exact h.setWaiting _ _
  | accept conn id e =>
    show (s.accept conn id e).table.Inv
    unfold accept
    split
    · exact insertTcp_inv (h.setWaiting _ _) _ _
    · exact h
  | close conn id => exact h.close _
  | connectionClosed conn => exact foldl_close_inv h _
  | orphanDone e => exact h.orphanDone e
  | grant conn child =>
    show ((s.grant conn child).toOption.getD s).table.Inv
    rcases hg : s.grant conn child with _ | s'
    · exact h
    obtain ⟨_, _, hg⟩ := seq_eq_ok.mp hg
    obtain ⟨_, _, hg⟩ := seq_eq_ok.mp hg
    obtain ⟨_, _, hg⟩ := seq_eq_ok.mp hg
    cases hg
    exact h

theorem run_inv (start : ℕ) (ops : List Op) : ((new start).run ops).table.Inv := by
  have key : ∀ s : Stack, s.table.Inv → (s.run ops).table.Inv := by
    induction ops with
    | nil => exact fun _ h => h
    | cons op ops ih => exact fun s h => ih _ (step_inv h op)
  refine key _ fun k e => ?_
  cases k <;> exact Nat.zero_le _

/-! ### The port chosen -/

theorem scan_eq_some {lo hi : ℕ} (h : s.scan addr udp lo hi = some port) :
    (lo ≤ port ∧ port ≤ hi) ∧ s.table.used udp ⟨addr, port⟩ = false := by
  unfold scan at h
  split_ifs at h with hlt
  refine ⟨?_, by simpa using List.find?_some h⟩
  obtain ⟨k, _, rfl⟩ := mem_map.mp (mem_of_find?_eq_some h)
  have : (s.nextPort % (hi - lo + 1) + k) % (hi - lo + 1) < hi - lo + 1 :=
    Nat.mod_lt _ (Nat.succ_pos _)
  omega

/-- A port found under a policy is in a local rule for the address, and unused. -/
theorem freePort_spec {p : Policy} (h : s.freePort addr udp (some p) = some (port, s')) :
    (p.local.any (·.permits ⟨addr, port⟩)) ∧ s.table.used udp ⟨addr, port⟩ = false := by
  obtain ⟨_, hfound, heq⟩ := Option.map_eq_some_iff.mp h
  cases heq
  obtain ⟨⟨first, last⟩, hmem, hscan⟩ := exists_of_findSome?_eq_some hfound
  obtain ⟨r, hr, hrange⟩ := mem_map.mp hmem
  cases hrange
  obtain ⟨hlocal, hcontains⟩ := mem_filter.mp hr
  obtain ⟨hport, hused⟩ : (r.first ≤ port ∧ port ≤ r.last)
      ∧ s.table.used udp ⟨addr, port⟩ = false := by
    rcases Option.or_eq_some_iff.mp hscan with hscan | ⟨-, hscan⟩
    all_goals
      have := scan_eq_some hscan
      refine ⟨?_, this.2⟩
      grind
  refine ⟨any_eq_true.mpr ⟨r, hlocal, ?_⟩, hused⟩
  simp only [Rule.permits, Bool.and_eq_true, decide_eq_true_eq]
  exact ⟨hcontains, hport⟩

end Stack

/-! ### Grants and chosen endpoints -/

/-- A connection holding `p` was granted `c`. -/
def Granted (p c : Policy) : Prop := ∃ s s' conn, s.policy conn = p ∧ Stack.grant s conn c = .ok s'

variable {c p : Policy} {udp : Bool} {e : Endpoint}

theorem Granted.covers (h : Granted p c) : p.covers c := by
  obtain ⟨s, s', conn, rfl, hg⟩ := h
  obtain ⟨_, _, hg⟩ := seq_eq_ok.mp hg
  obtain ⟨_, _, hg⟩ := seq_eq_ok.mp hg
  obtain ⟨_, hcov, _⟩ := seq_eq_ok.mp hg
  exact not_not.mp (rejectIf_eq_ok.mp hcov)

theorem covers_of_chain (h : Relation.ReflTransGen Granted p c) : p.covers c := by
  induction h with
  | refl => exact Policy.covers_refl p
  | tail _ hg ih => exact Policy.covers_trans ih hg.covers

/-- A socket of `udp`'s protocol, or for TCP an orphan, is at `e`. -/
def Table.Holds (t : Table) (udp : Bool) (e : Endpoint) : Prop :=
  (∃ j sock, t.sockets.get j = some sock ∧
    sock.hold ∈ if udp then [(.udp, e)] else [(Kind.conn, e), (.listener, e)])
  ∨ udp = false ∧ e ∈ t.orphans

theorem Table.Inv.not_holds {t : Table} (h : t.Inv)
    (hfree : t.used udp e = false) : ¬ t.Holds udp e := by
  have hnone {k j sock} (hj : t.sockets.get j = some sock) (hk : sock.hold = (k, e)) :
      t.record k e ≠ 0 := by
    have hsum := OrdMap.le_sum hj fun _ x => if x.hold = (k, e) then 1 else 0
    have hle := h k e
    simp only [hk, if_true] at hsum
    unfold Table.held at hle
    omega
  -- a free port is in no record of its protocol
  have hzero : ∀ k ∈ if udp then [Kind.udp] else [Kind.conn, .listener], t.record k e = 0 := by
    cases udp <;> simpa [used, record, mark, and_comm] using hfree
  rintro (⟨j, sock, hj, hmem⟩ | ⟨rfl, hmem⟩)
  · obtain ⟨k, hk, heq⟩ : ∃ k ∈ if udp then [Kind.udp] else [Kind.conn, .listener],
        sock.hold = (k, e) := by
      cases udp <;> simpa using hmem
    exact hnone hj heq (hzero k hk)
  · have hle := h .conn e
    rw [hzero .conn (by simp)] at hle
    have := count_pos_iff.mpr hmem
    simp only [held, if_true] at hle
    omega

theorem Stack.openLocal_spec {s : Stack} (h : s.table.Inv) {conn : ℕ}
    {addr : Addr} {a : Answers} {id : ℕ}
    (hok : (s.openLocal udp conn ⟨addr, 0⟩ a).2 = .ok (id, e)) :
    e.addr = addr ∧ (if udp then (s.policy conn).mayBind e else (s.policy conn).mayListen e)
      ∧ ¬ s.table.Holds udp e := by
  unfold openLocal at hok
  dsimp only at hok
  split at hok
  · cases hok
  rename_i hchecks
  obtain ⟨_, _, hchecks⟩ := seq_eq_ok.mp hchecks
  obtain ⟨_, hright, _⟩ := seq_eq_ok.mp hchecks
  have hright := not_not.mp (not_or.mp (rejectIf_eq_ok.mp hright)).1
  split at hok
  · cases hok
  rename_i port s₁ hport
  obtain ⟨hlocal, hused⟩ := freePort_spec hport
  split at hok
  · cases hok
  split at hok
  · cases hok
    refine ⟨rfl, ?_, h.not_holds hused⟩
    cases udp
    · exact (Bool.and_eq_true _ _).mpr ⟨hright, hlocal⟩
    · exact (Bool.and_eq_true _ _).mpr ⟨hright, hlocal⟩
  · cases hok

/-- **Grants only narrow, and a chosen endpoint is permitted and free in its protocol.**
Coverage is containment for every operation, reflexive and transitive, so a policy at
the end of a chain of grants permits only what the first does.  In every run, the
endpoint `listen` picks for port 0 is one `may_listen` permits, at which there is no
listener, connection or orphan; the one `bind` picks is one `may_bind` permits, at which
there is no UDP socket. -/
theorem grants_narrow : (∀ p c : Policy, p.covers c → c.Narrows p) ∧
    (∀ p : Policy, p.covers p) ∧
    (∀ p q r : Policy, p.covers q → q.covers r → p.covers r) ∧
    (∀ p c : Policy, Relation.ReflTransGen Granted p c → c.Narrows p) ∧
    (∀ start ops conn addr backlog a id e, let s := (Stack.new start).run ops
      (s.listen conn ⟨addr, 0⟩ backlog a).2 = .ok (id, e) →
        e.addr = addr ∧ (s.policy conn).mayListen e ∧ ¬ s.table.Holds false e) ∧
    (∀ start ops conn addr a id e, let s := (Stack.new start).run ops
      (s.bind conn ⟨addr, 0⟩ a).2 = .ok (id, e) →
        e.addr = addr ∧ (s.policy conn).mayBind e ∧ ¬ s.table.Holds true e) := by
  refine ⟨fun p c => Policy.covers_narrows, Policy.covers_refl, fun p q r => Policy.covers_trans,
    fun p c h => Policy.covers_narrows (covers_of_chain h), ?_, ?_⟩
  · intro start ops conn addr backlog a id e s hok
    unfold Stack.listen at hok
    split at hok
    · cases hok
    · exact Stack.openLocal_spec (Stack.run_inv start ops) hok
  · intro start ops conn addr a id e s hok
    exact Stack.openLocal_spec (Stack.run_inv start ops) hok

/-- **A port chosen for a listener may be a UDP socket's**: with one port to choose from,
`bind` takes it and `listen` is given the same endpoint. -/
theorem listen_shares_udp : ∃ start ops conn addr backlog a id e, let s := (Stack.new start).run ops
      (s.listen conn ⟨addr, 0⟩ backlog a).2 = .ok (id, e) ∧ s.table.Holds true e := by
  let addr : Addr := .v4 0x0A000001
  let p : Policy := ⟨allRights, [], [⟨⟨addr, 32⟩, 49152, 49152⟩], [], 8⟩
  refine ⟨49152, [.connection 1 p, .bind 1 ⟨addr, 0⟩ ⟨true, true, true⟩], 1, addr, 1,
    ⟨true, true, true⟩, 2, ⟨addr, 49152⟩, by decide,
    .inl ⟨toLex (1, 1), .udp ⟨addr, 49152⟩, by decide, by decide⟩⟩

end Moruna.Net

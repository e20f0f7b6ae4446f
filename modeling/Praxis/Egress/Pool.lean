/-
The connector's pool: connections by the order in which they were last returned or used, and for
every key the orders of its connections. A connection is found by taking the newest order of the key
and the connection at that order, so a key must list no order that another key's connection has.
-/
import Praxis.Egress.Tls
import Praxis.Lib.AssocMap
import Mathlib.Algebra.Ring.Nat

namespace Praxis.Egress

open PoolKey List

open Praxis.Lib (Handle)
open Praxis.Lib.AssocMap (get? remove set insertAt mem_of_get? mem_remove mem_set mem_insertAt)

/-! ## Connections -/

inductive Protocol where
  | http1
  | http2
deriving Repr, DecidableEq

/-- `Connection`, with the peer it was dialed for. Handles on one connection have one id. -/
structure Connection where
  id : Nat
  protocol : Protocol
  dialedFor : PeerSpec
deriving DecidableEq

/-- `Connection::share`: only an HTTP/2 connection can be held twice. -/
def Connection.share (connection : Connection) : Option Connection :=
  match connection.protocol with
  | .http1 => none
  | .http2 => some connection

theorem Connection.eq_of_share {connection shared : Connection} (h : connection.share = some shared) :
    shared = connection := by
  unfold share at h
  split at h
  · cases h
  · exact (Option.some.inj h).symm

/-! ## The pool -/

structure Entry where
  connection : Connection
  key : PoolKey
deriving DecidableEq

structure Pool where
  capacity : Nat
  entries : List (Nat × Entry)
  keys : List (PoolKey × List Nat)
  next : Nat
deriving DecidableEq

namespace Pool

def new (capacity : Nat) : Pool := { capacity, entries := [], keys := [], next := 0 }

variable (pool : Pool)

/-- The orders of a key; a key without orders is not kept. -/
def setOrders (key : PoolKey) (orders : List Nat) : Pool :=
  { pool with
    keys := if orders.isEmpty then remove same pool.keys key else set same key orders pool.keys }

/-- `entries.remove` -/
def removeEntry (order : Nat) : Pool := { pool with entries := pool.entries.filter fun oe => oe.1 != order }

/-- `entries.get` -/
def entryAt (order : Nat) : Option Entry := (pool.entries.find? fun oe => oe.1 == order).map Prod.snd

def takeNewest (key : PoolKey) : Option Entry × Pool :=
  match get? same pool.keys key with
  | none => (none, pool)
  | some orders =>
    let pool := pool.setOrders key orders.dropLast
    match orders.getLast? with
    | none => (none, pool)
    | some order => (pool.entryAt order, pool.removeEntry order)

def forget (key : PoolKey) (order : Nat) : Pool :=
  match get? same pool.keys key with
  | none => pool
  | some orders => pool.setOrders key (orders.filter (· != order))

/-- `Pool::push`; the order number is a `u64` that wraps around. -/
def push (entry : Entry) : Pool :=
  { pool with
    next := (pool.next + 1) % 2 ^ 64
    keys := set same entry.key ((get? same pool.keys entry.key).getD [] ++ [pool.next]) pool.keys
    entries := insertAt pool.next entry pool.entries }

/-- The loop of `put` that lets the oldest connections go. -/
def evict (pool : Pool) : Nat → Pool
  | 0 => pool
  | fuel + 1 =>
    if pool.capacity < pool.entries.length then
      match pool.entries with
      | [] => pool
      | (order, oldest) :: rest => ({ pool with entries := rest }.forget oldest.key order).evict fuel
    else pool

/-- `Pool::take_shared_slot`; `usable` says which connections can take an exchange. -/
def takeSharedSlot (usable : Connection → Bool) (key : PoolKey) (connection : Connection) : Bool × Pool :=
  let current := (get? same pool.keys key).bind fun orders =>
    orders.find? fun order => (pool.entryAt order).any fun entry => entry.connection.protocol == .http2
  match current with
  | none => (true, pool)
  | some order =>
    if (pool.entryAt order).any fun entry => entry.connection.id != connection.id && usable entry.connection then
      (false, pool)
    else
      match pool.entryAt order with
      | some _ => (true, (pool.removeEntry order).forget key order)
      | none => (true, pool)

def put (usable : Connection → Bool) (key : PoolKey) (connection : Connection) : Pool :=
  let add (pool : Pool) := let pushed := pool.push { connection, key }; pushed.evict pushed.entries.length
  if connection.protocol = .http2 then
    match pool.takeSharedSlot usable key connection with
    | (false, pool) => pool
    | (true, pool) => add pool
  else add pool

/-- The loop of `checkout`, over the orders of the key. -/
def checkoutLoop (usable expired : Connection → Bool) (key : PoolKey) : Nat → Pool → Option Connection × Pool
  | 0, pool => (none, pool)
  | fuel + 1, pool =>
    match pool.takeNewest key with
    | (none, pool) => (none, pool)
    | (some entry, pool) =>
      if expired entry.connection || !usable entry.connection then checkoutLoop usable expired key fuel pool
      else
        match entry.connection.share with
        | none => (some entry.connection, pool)
        | some shared => (some shared, pool.push entry)

/-- `Pool::checkout`. Every round takes an order of the key away, so there are no more rounds than orders. -/
def checkout (usable expired : Connection → Bool) (key : PoolKey) : Option Connection × Pool :=
  checkoutLoop usable expired key ((get? same pool.keys key).elim 0 length) pool

/-- The weak handles the pool holds. -/
def handles (pool : Pool) : List Handle :=
  pool.keys.flatMap (fun ko => ko.1.handles) ++ pool.entries.flatMap (fun oe => oe.2.key.handles)

/-! ## What the pool keeps -/

/-- A connection stands under the key of the peer it was dialed for, and a key lists no order at which
another key's connection stands. -/
structure Ok (pool : Pool) : Prop where
  entries : ∀ oe ∈ pool.entries, oe.1 < pool.next ∧ oe.2.key = PoolKey.new oe.2.connection.dialedFor
  keys : ∀ ko ∈ pool.keys, ∀ order ∈ ko.2,
    order < pool.next ∧ ∀ oe ∈ pool.entries, oe.1 = order → oe.2.key = ko.1

theorem ok_new (capacity : Nat) : (new capacity).Ok := ⟨by simp [new], by simp [new]⟩

/-- Nothing new is in the pool. -/
structure Shrinks (pool pool' : Pool) : Prop where
  next : pool'.next = pool.next
  entries : pool'.entries ⊆ pool.entries
  keys : ∀ ko ∈ pool'.keys, ∃ orders, (ko.1, orders) ∈ pool.keys ∧ ko.2 ⊆ orders

theorem Shrinks.refl : Shrinks pool pool := ⟨rfl, fun _ h => h, fun ko h => ⟨ko.2, h, fun _ h => h⟩⟩

theorem Shrinks.trans {a b c : Pool} (h : Shrinks a b) (h' : Shrinks b c) : Shrinks a c := by
  refine ⟨h'.next.trans h.next, fun _ hoe => h.entries (h'.entries hoe), fun ko hko => ?_⟩
  obtain ⟨orders, horders, hsub⟩ := h'.keys ko hko
  obtain ⟨orders', horders', hsub'⟩ := h.keys _ horders
  exact ⟨orders', horders', fun _ ho => hsub' (hsub ho)⟩

theorem Shrinks.ok {pool pool' : Pool} (h : Shrinks pool pool') (hok : pool.Ok) : pool'.Ok := by
  constructor
  · intro oe hoe
    rw [h.next]
    exact hok.entries oe (h.entries hoe)
  · intro ko hko order horder
    obtain ⟨orders, horders, hsub⟩ := h.keys ko hko
    obtain ⟨hlt, hkey⟩ := hok.keys _ horders order (hsub horder)
    rw [h.next]
    exact ⟨hlt, fun oe hoe => hkey oe (h.entries hoe)⟩

theorem Shrinks.handles {pool pool' : Pool} (h : Shrinks pool pool') : pool'.handles ⊆ pool.handles := by
  intro x hx
  simp only [Pool.handles, mem_append, mem_flatMap] at hx ⊢
  rcases hx with ⟨ko, hko, hx⟩ | ⟨oe, hoe, hx⟩
  · obtain ⟨orders, horders, -⟩ := h.keys ko hko
    exact .inl ⟨_, horders, hx⟩
  · exact .inr ⟨oe, h.entries hoe, hx⟩

theorem handles_of_mem_keys {pool : Pool} {ko : PoolKey × List Nat} (h : ko ∈ pool.keys) : ko.1.handles ⊆ pool.handles :=
  fun _ hx => mem_append_left _ (mem_flatMap.2 ⟨ko, h, hx⟩)

theorem handles_of_mem_entries {pool : Pool} {oe : Nat × Entry} (h : oe ∈ pool.entries) : oe.2.key.handles ⊆ pool.handles :=
  fun _ hx => mem_append_right _ (mem_flatMap.2 ⟨oe, h, hx⟩)

theorem mem_entries_of_entryAt {pool : Pool} {order : Nat} {entry : Entry} (h : pool.entryAt order = some entry) :
    (order, entry) ∈ pool.entries := by
  obtain ⟨oe, hfind, rfl⟩ := Option.map_eq_some_iff.1 h
  have horder : oe.1 = order := by simpa using find?_some hfind
  exact horder ▸ mem_of_find?_eq_some hfind

/-! ## Taking connections out

Every handle of the pool and of the key exists at the same time, so that a key found in the map is the
key looked for. -/

section

variable {hs : List Handle} {pool pool' : Pool} {key : PoolKey}

theorem mem_keys_of_get? (hd : Handle.Distinct hs) (hpool : pool.handles ⊆ hs) (hkey : key.handles ⊆ hs)
    {orders : List Nat} (h : get? same pool.keys key = some orders) : (key, orders) ∈ pool.keys := by
  obtain ⟨stored, hmem, hsame⟩ := mem_of_get? h
  have hhandles : stored.handles ⊆ hs := fun _ hx => hpool (handles_of_mem_keys hmem hx)
  exact eq_of_same hd hhandles hkey hsame ▸ hmem

theorem shrinks_setOrders (hd : Handle.Distinct hs) (hpool : pool.handles ⊆ hs) (hkey : key.handles ⊆ hs)
    {orders orders' : List Nat} (hget : get? same pool.keys key = some orders) (hsub : orders' ⊆ orders) :
    Shrinks pool (pool.setOrders key orders') := by
  refine ⟨rfl, fun _ h => h, fun ko hko => ?_⟩
  simp only [setOrders] at hko
  split at hko
  · exact ⟨ko.2, mem_remove hko, fun _ h => h⟩
  · have hstored := mem_keys_of_get? hd hpool hkey hget
    rcases mem_set hko with hold | ⟨hval, hnew | ⟨⟨orders'', hmem⟩, hsame⟩⟩
    · exact ⟨ko.2, hold, fun _ h => h⟩
    · exact ⟨orders, hnew ▸ hstored, hval ▸ hsub⟩
    · have hhandles : ko.1.handles ⊆ hs := fun _ hx => hpool (handles_of_mem_keys hmem hx)
      exact ⟨orders, eq_of_same hd hhandles hkey hsame ▸ hstored, hval ▸ hsub⟩

theorem shrinks_removeEntry (pool : Pool) (order : Nat) : Shrinks pool (pool.removeEntry order) :=
  ⟨rfl, fun _ h => mem_of_mem_filter h, fun ko h => ⟨ko.2, h, fun _ h => h⟩⟩

section

variable (hd : Handle.Distinct hs) (hpool : pool.handles ⊆ hs)
include hd hpool

theorem shrinks_forget (hkey : key.handles ⊆ hs) (order : Nat) : Shrinks pool (pool.forget key order) := by
  unfold forget
  split
  · exact .refl pool
  · rename_i orders hget
    exact shrinks_setOrders hd hpool hkey hget fun _ h => mem_of_mem_filter h

theorem takeNewest_spec (hkey : key.handles ⊆ hs) {taken : Option Entry} (h : pool.takeNewest key = (taken, pool')) :
    Shrinks pool pool' ∧
      ∀ entry, taken = some entry →
        ∃ order orders, (order, entry) ∈ pool.entries ∧ (key, orders) ∈ pool.keys ∧ order ∈ orders := by
  unfold takeNewest at h
  split at h
  · cases h
    exact ⟨.refl pool, fun _ h => nomatch h⟩
  · rename_i orders hget
    have hset := shrinks_setOrders hd hpool hkey hget (dropLast_subset orders)
    split at h
    · cases h
      exact ⟨hset, fun _ h => nomatch h⟩
    · rename_i order hlast
      cases h
      refine ⟨hset.trans (shrinks_removeEntry _ order), fun entry hentry => ⟨order, orders, ?_, ?_, ?_⟩⟩
      · exact hset.entries (mem_entries_of_entryAt hentry)
      · exact mem_keys_of_get? hd hpool hkey hget
      · exact mem_of_getLast? hlast

theorem shrinks_evict (fuel : Nat) : Shrinks pool (pool.evict fuel) := by
  induction fuel generalizing pool with
  | zero => exact .refl pool
  | succ fuel ih =>
    unfold evict
    split
    · split
      · exact .refl pool
      · rename_i order oldest rest hentries
        have hrest : Shrinks pool { pool with entries := rest } :=
          ⟨rfl, fun _ h => hentries ▸ mem_cons_of_mem _ h, fun ko h => ⟨ko.2, h, fun _ h => h⟩⟩
        have holdest : oldest.key.handles ⊆ hs := fun _ hx =>
          hpool (handles_of_mem_entries (hentries ▸ mem_cons_self) hx)
        have hforget := hrest.trans (shrinks_forget hd (fun _ h => hpool (hrest.handles h)) holdest order)
        exact hforget.trans (ih fun _ h => hpool (hforget.handles h))
    · exact .refl pool

theorem shrinks_takeSharedSlot (hkey : key.handles ⊆ hs) (usable : Connection → Bool) (connection : Connection) :
    Shrinks pool (pool.takeSharedSlot usable key connection).2 := by
  simp only [takeSharedSlot]
  split
  · exact .refl pool
  · rename_i order _
    split
    · exact .refl pool
    · split
      · have hremove := shrinks_removeEntry pool order
        exact hremove.trans (shrinks_forget hd (fun _ h => hpool (hremove.handles h)) hkey order)
      · exact .refl pool

end

/-! ## Putting connections in -/

theorem handles_push (pool : Pool) (entry : Entry) : (pool.push entry).handles ⊆ pool.handles ++ entry.key.handles := by
  intro x hx
  simp only [handles, push, mem_append, mem_flatMap] at hx ⊢
  rcases hx with ⟨ko, hko, hx⟩ | ⟨oe, hoe, hx⟩
  · rcases mem_set hko with hold | ⟨-, hnew | ⟨⟨orders, hmem⟩, -⟩⟩
    · exact .inl (.inl ⟨ko, hold, hx⟩)
    · exact .inr (hnew ▸ hx)
    · exact .inl (.inl ⟨_, hmem, hx⟩)
  · rcases mem_insertAt hoe with rfl | hold
    · exact .inr hx
    · exact .inl (.inr ⟨oe, hold, hx⟩)

section

variable (hd : Handle.Distinct hs) (hpool : pool.handles ⊆ hs)
include hd hpool

/-- An entry under the key of its peer, at an order number that nothing in the pool has. -/
theorem ok_push {entry : Entry} (hkey : entry.key.handles ⊆ hs)
    (hentry : entry.key = PoolKey.new entry.connection.dialedFor) (hnext : pool.next ≤ (pool.push entry).next) (hok : pool.Ok) :
    (pool.push entry).Ok := by
  have hlater : (pool.push entry).next = pool.next + 1 := by
    have hmod : (pool.push entry).next = (pool.next + 1) % 2 ^ 64 := rfl
    omega
  -- an order of the key before the push is below the number the entry gets
  have hlisted : ∀ order orders, (entry.key, orders) ∈ pool.keys → order ∈ orders →
      order < (pool.push entry).next ∧ ∀ oe ∈ (pool.push entry).entries, oe.1 = order → oe.2.key = entry.key := by
    intro order orders hmem horder
    obtain ⟨hlt, hsame⟩ := hok.keys _ hmem order horder
    refine ⟨by omega, fun oe hoe heq => ?_⟩
    rcases mem_insertAt hoe with rfl | hold
    · rfl
    · exact hsame oe hold heq
  constructor
  · intro oe hoe
    rcases mem_insertAt hoe with rfl | hold
    · exact ⟨by omega, hentry⟩
    · have := hok.entries oe hold
      exact ⟨by omega, this.2⟩
  · intro ko hko order horder
    have hown : ko.1 = entry.key → ko.2 = (get? PoolKey.same pool.keys entry.key).getD [] ++ [pool.next] →
        order < (pool.push entry).next ∧ ∀ oe ∈ (pool.push entry).entries, oe.1 = order → oe.2.key = ko.1 := by
      intro hk hval
      rw [hval] at horder
      rcases mem_append.1 horder with hbefore | hlast
      · cases hget : get? PoolKey.same pool.keys entry.key with
        | none => simp [hget] at hbefore
        | some orders =>
          rw [hget] at hbefore
          rw [hk]
          exact hlisted order orders (mem_keys_of_get? hd hpool hkey hget) hbefore
      · obtain rfl := mem_singleton.1 hlast
        refine ⟨by omega, fun oe hoe heq => ?_⟩
        rcases mem_insertAt hoe with rfl | hold
        · exact hk.symm
        · have := (hok.entries oe hold).1
          omega
    rcases mem_set hko with hold | ⟨hval, hnew | ⟨⟨orders, hmem⟩, hsame⟩⟩
    · obtain ⟨hlt, hsame⟩ := hok.keys ko hold order horder
      refine ⟨by omega, fun oe hoe heq => ?_⟩
      rcases mem_insertAt hoe with rfl | hin
      · simp only at heq
        omega
      · exact hsame oe hin heq
    · exact hown hnew hval
    · have hhandles : ko.1.handles ⊆ hs := fun _ hx => hpool (handles_of_mem_keys hmem hx)
      exact hown (PoolKey.eq_of_same hd hhandles hkey hsame) hval

theorem put_spec (hkey : key.handles ⊆ hs) (usable : Connection → Bool) {connection : Connection}
    (hentry : key = PoolKey.new connection.dialedFor) (hnext : pool.next ≤ (pool.put usable key connection).next) (hok : pool.Ok) :
    (pool.put usable key connection).Ok ∧ (pool.put usable key connection).handles ⊆ hs := by
  have hadd : ∀ pool' : Pool, Shrinks pool pool' →
      let pushed := pool'.push { connection, key }
      pool.next ≤ (pushed.evict pushed.entries.length).next →
        (pushed.evict pushed.entries.length).Ok ∧ (pushed.evict pushed.entries.length).handles ⊆ hs := by
    intro pool' hshrinks pushed hnext
    have hpool' : pool'.handles ⊆ hs := fun _ h => hpool (hshrinks.handles h)
    have hpushed : pushed.handles ⊆ hs := fun _ h =>
      (append_subset.2 ⟨hpool', hkey⟩) (handles_push pool' _ h)
    have hevict := shrinks_evict hd hpushed pushed.entries.length
    have hnext' : pool'.next ≤ pushed.next := by rwa [hshrinks.next, ← hevict.next]
    exact ⟨hevict.ok (ok_push hd hpool' hkey hentry hnext' (hshrinks.ok hok)), fun _ h => hpushed (hevict.handles h)⟩
  unfold put at hnext ⊢
  split at hnext
  · rename_i hprotocol
    have hslot := shrinks_takeSharedSlot hd hpool hkey usable connection
    rw [if_pos hprotocol]
    generalize pool.takeSharedSlot usable key connection = slot at hslot hnext
    obtain ⟨free, taken⟩ := slot
    cases free with
    | false => exact ⟨hslot.ok hok, fun _ h => hpool (hslot.handles h)⟩
    | true => exact hadd taken hslot hnext
  · rename_i hprotocol
    rw [if_neg hprotocol]
    exact hadd pool (.refl pool) hnext

/-- What `checkout` returns was dialed for a peer with the key asked for. -/
theorem checkout_spec (hkey : key.handles ⊆ hs) (usable expired : Connection → Bool) (hnext : pool.next ≤ pool'.next)
    (hok : pool.Ok) {found : Option Connection} (h : pool.checkout usable expired key = (found, pool')) :
    pool'.Ok ∧ pool'.handles ⊆ hs ∧ ∀ connection ∈ found, PoolKey.new connection.dialedFor = key := by
  unfold checkout at h
  generalize (get? PoolKey.same pool.keys key).elim 0 length = fuel at h
  induction fuel generalizing pool with
  | zero => cases h; exact ⟨hok, hpool, by simp⟩
  | succ fuel ih =>
    unfold checkoutLoop at h
    split at h
    · rename_i left htake
      cases h
      obtain ⟨hshrinks, -⟩ := takeNewest_spec hd hpool hkey htake
      exact ⟨hshrinks.ok hok, fun _ h => hpool (hshrinks.handles h), by simp⟩
    · rename_i entry left htake
      obtain ⟨hshrinks, htaken⟩ := takeNewest_spec hd hpool hkey htake
      obtain ⟨order, orders, hmem, hlisted, horder⟩ := htaken entry rfl
      have hleft : left.handles ⊆ hs := fun _ h => hpool (hshrinks.handles h)
      have hown : entry.key = PoolKey.new entry.connection.dialedFor := (hok.entries _ hmem).2
      have hasked : entry.key = key := (hok.keys _ hlisted order horder).2 _ hmem rfl
      split at h
      · exact ih hleft (Nat.le_trans (Nat.le_of_eq hshrinks.next) hnext) (hshrinks.ok hok) h
      · split at h
        · cases h
          exact ⟨hshrinks.ok hok, hleft, fun _ hfound => Option.some.inj hfound ▸ hown.symm.trans hasked⟩
        · rename_i shared hshare
          cases h
          have hpushed : (left.push entry).handles ⊆ hs := fun _ h =>
            (append_subset.2 ⟨hleft, hasked ▸ hkey⟩) (handles_push left entry h)
          have hnext' : left.next ≤ (left.push entry).next := Nat.le_trans (Nat.le_of_eq hshrinks.next) hnext
          refine ⟨ok_push hd hleft (hasked ▸ hkey) hown hnext' (hshrinks.ok hok), hpushed, ?_⟩
          intro connection hfound
          cases hfound
          rw [Connection.eq_of_share hshare]
          exact hown.symm.trans hasked

end

end

end Pool

end Praxis.Egress

import Nflambda.Base.Index

/-!
# Messages, states and action table entries of the runtime

Library `Runtime`. Source `src/runtime/common.h`, `src/runtime/common/defined.h`,
`src/runtime/state/state.h` and `state.c`. C integers are `Int`; fields with a
fixed unsigned width are bit vectors. `rte_hash` is not part of the repository
and enters as a class.
-/

namespace Nflambda.Runtime

open Nflambda.Base

/-- `common.h:42`. -/
abbrev MAXIMUM_PATH : Nat := 10

/-- `common.h:43`. -/
abbrev MAXIMUM_PATH_INSTANCE : Nat := 24

/-- Slots of `action_table`, `common.h:55`. -/
abbrev ACTION_TABLE_SIZE : Nat := 200

/-- State objects allocated by `config_init`, `Config.c:252–256`. The state table has 200
slots, of which only these are ever filled. -/
abbrev STATE_NUM : Nat := 100

/-- `common.h:15`. -/
abbrev RSS_I_TABLE_SIZE : Nat := 512

/-- Length of `struct state`'s `value` array, `state.h:20`. -/
abbrev VALUE_SIZE : Nat := 1000000

/-- Index of a worker in `worker_list`, `Config.h:65`: there are 48 cores. -/
abbrev Core := Fin 48

instance neZero_paths : NeZero MAXIMUM_PATH := ⟨by decide⟩

instance neZero_actions : NeZero ACTION_TABLE_SIZE := ⟨by decide⟩

instance neZero_states : NeZero STATE_NUM := ⟨by decide⟩

instance neZero_cores : NeZero 48 := ⟨by decide⟩

/-- Reasons why an execution has no defined continuation. -/
inductive Fault where
  /-- A token is read that the tokenizer did not produce. -/
  | missingToken
  /-- An index outside a table or array. -/
  | outOfBounds
  /-- A pointer that no code has stored. -/
  | wildPointer
  /-- Remainder by zero. -/
  | divisionByZero
  /-- A format asks for an argument that the call does not pass. -/
  | missingArgument
  deriving DecidableEq, Repr

/-- A computation that succeeds consists of parts that do. -/
theorem ok_of_bind {α β : Type} {x : Except Fault α} {f : α → Except Fault β} {b : β}
    (h : (x >>= f) = .ok b) : ∃ a, x = .ok a ∧ f a = .ok b := by
  cases x with
  | error e => cases h
  | ok a => exact ⟨a, rfl, h⟩

/-- `struct ipv4_5tuple`, `defined.h:11–17`. -/
structure Ipv4FiveTuple where
  proto : BitVec 8
  ipSrc : BitVec 32
  ipDst : BitVec 32
  portSrc : BitVec 16
  portDst : BitVec 16
  deriving DecidableEq, Repr

/-- A packet as the runtime sees it: the buffer's identity and the RSS hash the NIC stored. -/
structure Mbuf where
  oid : Nat
  rss : BitVec 32
  deriving DecidableEq, Repr

theorem Mbuf.bucket_lt (p : Mbuf) : p.rss.toNat % 512 < RSS_I_TABLE_SIZE :=
  Nat.mod_lt _ (by decide)

/-- What `rte_eth_rx_burst` delivers: a buffer and the length of its packet. -/
structure RxPacket where
  m : Mbuf
  pktLen : Nat
  deriving DecidableEq, Repr

/-- `struct message`, `common.h:20–30`, with the `rte_mbuf` member of its union. -/
structure Message where
  coreId : Int
  producerId : Int
  actionId : Int
  path : Int
  m : Mbuf
  rssHash : Nat
  deriving DecidableEq, Repr

/-- The operations of DPDK's `rte_hash` that the actions call. Positions are returned as
non-negative integers, errors as negative ones. -/
class RteHash (H : Type) where
  lookup : H → Ipv4FiveTuple → Int
  addKey : H → Ipv4FiveTuple → H × Int
  count : H → Nat

/-- `-ENOENT`, what `rte_hash_lookup` returns for an absent key. -/
abbrev ENOENT : Int := 2

/-- `-ENOSPC`, what `rte_hash_add_key` and `rte_hash_add_key_data` return for a full table. -/
abbrev ENOSPC : Int := 28

/-- A hash table without a bound that keeps its keys in a list, each at its position. -/
instance : RteHash (List Ipv4FiveTuple) where
  lookup keys key := if key ∈ keys then (keys.idxOf key : Int) else -ENOENT
  addKey keys key :=
    if key ∈ keys then (keys, (keys.idxOf key : Int)) else (keys ++ [key], (keys.length : Int))
  count := List.length

/-- `struct state`, `state.h:12–29`. -/
structure State (H : Type) where
  hashTable : H
  dataComplexity : Int
  controlComplexity : Int
  controlFrequency : Int
  counter : Int
  key : Ipv4FiveTuple
  randRange : Int
  value : Fin VALUE_SIZE → BitVec 32
  path : Fin MAXIMUM_PATH → Fin MAXIMUM_PATH_INSTANCE → Int
  pathInstanceNumber : Fin MAXIMUM_PATH → Int
  simplePath : Fin 10 → Int
  nMessage : Int
  hashTableSize : Int

/-- `struct init_state_parameter`, `common.h:66–78`, without the shared hash table. -/
structure InitStateParameter where
  executionId : Int
  controlFrequency : Int
  dataComplexity : Int
  controlComplexity : Int
  stateSize : Int
  randRange : Int
  dataStateSize : Int
  controlStateSize : Int
  path : Fin MAXIMUM_PATH → Fin MAXIMUM_PATH_INSTANCE → Int
  pathInstanceNumber : Fin MAXIMUM_PATH → Int

/-- `state_update`, `state.c:34–40`. -/
def stateUpdate {H : Type} (state : State H) (parameter : InitStateParameter) : State H :=
  { state with
    randRange := parameter.dataStateSize
    controlFrequency := parameter.controlFrequency
    controlComplexity := parameter.controlComplexity
    dataComplexity := parameter.dataComplexity
    counter := 0 }

/-- What a `struct state *` of an action table entry points to. -/
inductive StateRef where
  /-- A state object of the state table. -/
  | state (i : Fin STATE_NUM)
  /-- The worker object stored by `action create_packet_out`, `cli.c:210`. -/
  | worker (c : Core)
  /-- Whatever memory outside the filled part of the state table holds. -/
  | wild
  deriving DecidableEq, Repr

/-- The functions that entries of the action table may hold. -/
inductive Handler (H : Type) where
  /-- `transmit_packet`, `worker.h:71–78`. -/
  | transmitPacket
  /-- A network function's action: it reads and updates its state and sets `m->path`. -/
  | action (f : State H → Message → Except Fault (State H × Int))

/-- `struct action_table_entry`, `common.h:46–52`. The function is `none` while nothing has
been stored in it, or for the `NULL` registrations. -/
structure ActionTableEntry (H : Type) where
  action : Option (Handler H)
  path : Fin MAXIMUM_PATH → Fin MAXIMUM_PATH_INSTANCE → Int
  pathInstanceNumber : Fin MAXIMUM_PATH → Int
  state : StateRef
  coreId : Int

/-- `state_update` leaves the installed paths alone. -/
@[simp] theorem stateUpdate_simplePath {H : Type} (s : State H) (p : InitStateParameter) :
    (stateUpdate s p).simplePath = s.simplePath := rfl

end Nflambda.Runtime

import Mathlib.Data.Option.Basic
import Mathlib.Data.List.Basic

/-!
# Network functions of service chains

Library `Chain`. Source `src/director/em/nf_model.py`: the classes from which
`NF_registry` builds network functions, and the instances that `Sfc` makes of
them. Objects are mutable and compared by identity, so they live in tables and
refer to each other by their positions there. Colours, labels and graphs for
plots are left out. `none` models an exception.
-/

namespace Nflambda.Chain

/-- `State`, `nf_model.py:7–24`. -/
structure State where
  name : String
  shared : Bool
  registrationId : Int
  deriving DecidableEq, Repr

/-- `Action`, `nf_model.py:29–50`. Dependencies refer to actions. -/
structure Action where
  registrationId : Int
  name : String
  perPacketOperation : Bool
  dependenciesActionList : List Nat
  state : Option Nat
  nf : Option Nat
  deriving DecidableEq, Repr

/-- `Action.is_packet_in`, `nf_model.py:55–56`. -/
def Action.isPacketIn (a : Action) : Bool := a.name = "packet_in"

/-- `Action.is_packet_out`, `nf_model.py:58–59`. -/
def Action.isPacketOut (a : Action) : Bool := a.name = "packet_out"

/-- `Nf`, `nf_model.py:70–139`, with the lists that its constructor collects. -/
structure Nf where
  paths : List (String × String)
  name : String
  actionList : List Nat
  firstActions : List Nat
  lastActionsBeforePacketOut : List Nat
  stateList : List Nat
  deriving DecidableEq, Repr

/-- The objects that have been created. -/
structure Objects where
  states : List State
  actions : List Action
  nfs : List Nf
  deriving DecidableEq, Repr

/-- The list without the elements that are already in it, in the order of a loop that tests
`not in`. -/
def collect (refs : List Nat) : List Nat :=
  refs.foldl (fun found r ↦ if r ∈ found then found else found ++ [r]) []

/-- `Nf(nf_name, action_list, paths)`, `nf_model.py:71–139`: the actions are told their network
function. -/
def Objects.newNf (o : Objects) (name : String) (actionList : List Nat)
    (paths : List (String × String)) : Option (Objects × Nat) := do
  let members ← actionList.mapM fun i ↦ o.actions[i]?
  let first ← (actionList.zip members).filterM fun a ↦ do
    let dependencies ← a.2.dependenciesActionList.mapM fun i ↦ o.actions[i]?
    return dependencies.any Action.isPacketIn
  let last := (members.filter Action.isPacketOut).flatMap fun a ↦
    actionList.filter (· ∈ a.dependenciesActionList)
  let nf := ⟨paths, name, actionList, first.map Prod.fst, last,
    collect (members.filterMap Action.state)⟩
  let actions := o.actions.mapIdx fun i a ↦
    if i ∈ actionList then { a with nf := some o.nfs.length } else a
  return ({ o with actions, nfs := o.nfs ++ [nf] }, o.nfs.length)

/-- `Nf.get_path_id`, `nf_model.py:141–142`: the position of the pair of names. -/
def Nf.getPathId (nf : Nf) (src dst : Action) : Option Nat :=
  nf.paths.findIdx? fun p ↦ p = (src.name, dst.name)

/-- `Action_instance`, `nf_model.py:170–182`. -/
structure ActionInstance where
  action : Nat
  nfId : Nat
  stateInstance : Option Nat
  dependencyList : List Nat
  deriving DecidableEq, Repr

/-- `State_instance`, `nf_model.py:160–167`. -/
structure StateInstance where
  state : Nat
  nfId : Nat
  actionInstanceList : List Nat
  deriving DecidableEq, Repr

/-- `Sfc`, `nf_model.py:189–231`: the objects it is made of, and its instances. -/
structure Sfc where
  objects : Objects
  instances : List ActionInstance
  actionInstanceList : List Nat
  stateInstanceList : List StateInstance
  deriving DecidableEq, Repr

/-- One iteration of the loop over the states of a network function, `nf_model.py:301–308`. -/
def addStateInstance (o : Objects) (nfId : Nat) (list : List Nat)
    (r : List ActionInstance × List StateInstance) (state : Nat) :
    Option (List ActionInstance × List StateInstance) := do
  let users ← list.filterM fun i ↦ do
    let a ← r.1[i]?
    let action ← o.actions[a.action]?
    return action.state = some state
  let instances := r.1.mapIdx fun i a ↦
    if i ∈ users then { a with stateInstance := some r.2.length } else a
  return (instances, r.2 ++ [⟨state, nfId, collect users⟩])

/-- The loop that connects the instances, `nf_model.py:310–316`. -/
def connect (o : Objects) (list : List Nat) (instances : List ActionInstance) :
    Option (List ActionInstance) :=
  (list ×ˢ list).foldlM (fun instances p ↦ do
    let instance1 ← instances[p.1]?
    let instance2 ← instances[p.2]?
    let action1 ← o.actions[instance1.action]?
    if instance2.action ∈ action1.dependenciesActionList ∧ instance1.nfId = instance2.nfId ∧
        p.2 ∉ instance1.dependencyList then
      return instances.modify p.1 fun a ↦ { a with dependencyList := a.dependencyList ++ [p.2] }
    else return instances) instances

end Nflambda.Chain

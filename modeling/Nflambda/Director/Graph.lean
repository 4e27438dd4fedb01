import Nflambda.Base.Grid
import Nflambda.Base.Index
import Nflambda.Base.Intern
import Nflambda.Director.Nfunctor

/-!
# The nfunctor graph

Library `Director`. Source `src/director/em/__init__.py:127–251`: the state and
action runtime tables, and `Nfunctor_graph`, which fills them for every
execution and then wires the entries by the relationships of the module.
`None` models an exception.
-/

namespace Nflambda.Director

open Nflambda.Base

/-- `state_runtime`, `__init__.py:127–132`. -/
structure StateRuntime where
  state : State
  nfId : Nat
  executionId : Nat
  path : Fin 10 → Int

/-- `action_runtime`, `__init__.py:164–173`. -/
structure ActionRuntime where
  action : Nfunctor
  nfId : Nat
  executionId : Nat
  stateId : Int
  coreId : Int
  startingBucket : Nat
  numBucket : Nat
  nextAction : Int
  deriving DecidableEq, Repr

/-- `action_runtime.is_data`, `__init__.py:175–176`. -/
def ActionRuntime.isData (i : ActionRuntime) : Bool :=
  i.action.action.properties.contains (some pPerPacketOperation)

/-- The fields that `state_runtime_table.search` compares, `__init__.py:147–152`. -/
def StateRuntime.key (i : StateRuntime) : State × Nat × Nat := (i.state, i.nfId, i.executionId)

/-- `state_runtime_table.insert`, `__init__.py:154–161`: the table and the index. -/
def stateInsert (data : List StateRuntime) (state : State) (nfId executionId : Nat) :
    List StateRuntime × Nat :=
  intern StateRuntime.key data (state, nfId, executionId) ⟨state, nfId, executionId, fun _ ↦ -1⟩

/-- The fields that `action_runtime_table.search` compares, `__init__.py:191–196`. -/
def ActionRuntime.key (i : ActionRuntime) : Nfunctor × Nat × Nat :=
  (i.action, i.nfId, i.executionId)

/-- `action_runtime_table.insert`, `__init__.py:198–206`: the table and the index. -/
def actionInsert (data : List ActionRuntime) (action : Nfunctor) (nfId executionId : Nat)
    (stateId : Int) : List ActionRuntime × Nat :=
  intern ActionRuntime.key data (action, nfId, executionId)
    ⟨action, nfId, executionId, stateId, 1, 0, 0, -1⟩

/-- `Nfunctor_graph`, `__init__.py:209–220`: the tables and the next bucket. -/
structure NfunctorGraph where
  numBuckets : Nat
  startingBucket : Nat
  states : List StateRuntime
  actions : List ActionRuntime

/-- One iteration of the loop over the nfunctors of an execution, `__init__.py:224–239`. The
buckets are given to the last entry of the action table. -/
def NfunctorGraph.add (g : NfunctorGraph) (executionId : Nat) (i : NfunctorInstance) :
    NfunctorGraph :=
  let (states, stateId) :=
    match i.nfunctor.state with
    | none => (g.states, (-1 : Int))
    | some state =>
      let (states, index) := stateInsert g.states state i.nfId executionId
      (states, (index : Int))
  let actions := (actionInsert g.actions i.nfunctor i.nfId executionId stateId).1
  if i.nfunctor.action.name = "packet_in" then
    { g with
      states
      actions := actions.modify (actions.length - 1) (fun a ↦
        { a with startingBucket := g.startingBucket, numBucket := g.numBuckets })
      startingBucket := g.startingBucket + g.numBuckets }
  else { g with states, actions }

/-- The tables before the wiring, `__init__.py:210–239`. `(int)(512 / n)` is the integer
quotient. -/
def buildTables (l : List NfunctorInstance) (scalingN : Nat) : NfunctorGraph :=
  (List.range scalingN).foldl (fun g i ↦ l.foldl (fun g f ↦ g.add i f) g)
    ⟨512 / scalingN, 0, [], []⟩

/-- The body of the wiring loop, `__init__.py:244–251`, for the entries `i` and `j` with their
positions. -/
def wirePair (l : List NfunctorRelationship) (g : NfunctorGraph) (i j : ActionRuntime × Nat) :
    Option NfunctorGraph :=
  let pathId := inRelationshipList l i.1.action.action j.1.action.action
  if pathId ≠ -1 ∧ i.1.executionId = j.1.executionId then do
    let actions :=
      if i.1.action.action.name = "packet_in" then
        g.actions.modify i.2 (fun a ↦ { a with nextAction := (j.2 : Int) })
      else g.actions
    let s ← (pyIdx? g.states.length i.1.stateId).map Fin.val
    let p ← pyIdx? 10 pathId
    let states := g.states.modify s (fun r ↦
      { r with path := Function.update r.path p (j.2 : Int) })
    return { g with actions, states }
  else return g

/-- The wiring loop, `__init__.py:242–251`. The fields that it reads are not changed by it. -/
def wire (l : List NfunctorRelationship) (g : NfunctorGraph) : Option NfunctorGraph :=
  (g.actions.zipIdx ×ˢ g.actions.zipIdx).foldlM (fun g p ↦ wirePair l g p.1 p.2) g

/-- `Nfunctor_graph(nf_instance, scaling_n=n)`, `__init__.py:209–251`, for any list of nfunctor
instances: the relationships are those of the module. -/
def nfunctorGraphOf (nfunctorInstanceList : List NfunctorInstance) (scalingN : Nat) :
    Option NfunctorGraph :=
  if scalingN = 0 then none
  else wire nfunctorRelationshipList (buildTables nfunctorInstanceList scalingN)

/-- `Nfunctor_graph(NF_Instance(nf), scaling_n=n)`. -/
def nfunctorGraph (nf : Nf) (scalingN : Nat) : Option NfunctorGraph :=
  nfunctorGraphOf (nfunctorInstanceList nf) scalingN

end Nflambda.Director

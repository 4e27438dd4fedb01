import Nflambda.Director.Command

/-!
# Nfunctors

Library `Director`. Source `src/director/em/nfunctor.py:61–206` and the
objects of `src/director/em/__init__.py:7–52`. Python compares these objects by
identity; every object carries a number of its own, and two are the same if they
are equal.
-/

namespace Nflambda.Director

/-- `Property`, `nfunctor.py:61–63`. -/
structure Property where
  name : String
  deriving DecidableEq, Repr

/-- `State`, `nfunctor.py:71–77`. -/
structure State where
  oid : Nat
  name : String
  deriving DecidableEq, Repr

/-- `Action`, `nfunctor.py:80–87`. A property may be `None`. -/
structure Action where
  oid : Nat
  name : String
  properties : List (Option Property)
  registrationId : Int
  deriving DecidableEq, Repr

/-- `Nfunctor`, `nfunctor.py:102–106`: an action, and the state it uses if any. -/
structure Nfunctor where
  oid : Nat
  action : Action
  state : Option State
  deriving DecidableEq, Repr

/-- `Nfunctor_relationship`, `nfunctor.py:109–122`. -/
structure NfunctorRelationship where
  predecessor : Nfunctor
  successor : Nfunctor
  pathId : Int
  deriving DecidableEq, Repr

/-- `Nf`, `nfunctor.py:125–129`. -/
structure Nf where
  name : String
  nfunctorList : List Nfunctor
  nfunctorRelationshipList : List NfunctorRelationship

/-- `Nfunctor_instance`, `nfunctor.py:163–167`. -/
structure NfunctorInstance where
  nfunctor : Nfunctor
  nfId : Nat
  deriving DecidableEq, Repr

/-- `NF_Instance(nf).nfunctor_instance_list`, `nfunctor.py:198–206`. The list of relationship
instances that `__init__` builds next to it is not read by the planner. -/
def nfunctorInstanceList (nf : Nf) : List NfunctorInstance :=
  nf.nfunctorList.map (fun nfunctor ↦ ⟨nfunctor, 0⟩)

/-- `p_t["per_packet_operation"]`, `__init__.py:9,11`. -/
def pPerPacketOperation : Property := ⟨"per_packet_operation"⟩

/-- `p_t["system"]`, `__init__.py:8`. -/
def pSystem : Property := ⟨"system"⟩

/-! ### The generic decomposed network function, `__init__.py:13–47` -/

def gdDataState : State := ⟨0, "gd_data_state"⟩
def gdControlState : State := ⟨1, "gd_control_state"⟩

def packetIn : Action := ⟨0, "packet_in", [some pSystem, some pPerPacketOperation], 0⟩
def packetOut : Action := ⟨1, "packet_out", [some pSystem, some pPerPacketOperation], 1⟩
def gdClassifier : Action := ⟨2, "gd_classifier", [some pPerPacketOperation], 3⟩
def gdData : Action := ⟨3, "gd_data", [some pPerPacketOperation], 4⟩
def gdControl : Action := ⟨4, "gd_control", [none], 5⟩

def nfunctor1 : Nfunctor := ⟨0, packetIn, none⟩
def nfunctor2 : Nfunctor := ⟨1, gdClassifier, some gdDataState⟩
def nfunctor3 : Nfunctor := ⟨2, gdData, some gdDataState⟩
def nfunctor4 : Nfunctor := ⟨3, gdControl, some gdControlState⟩
def nfunctor5 : Nfunctor := ⟨4, packetOut, none⟩

/-- `nfunctor_list`, `__init__.py:30`. -/
def nfunctorList : List Nfunctor := [nfunctor1, nfunctor2, nfunctor3, nfunctor4, nfunctor5]

/-- `nfunctor_relationship_list`, `__init__.py:32–37`. -/
def nfunctorRelationshipList : List NfunctorRelationship :=
  [⟨nfunctor1, nfunctor2, 0⟩, ⟨nfunctor2, nfunctor3, 0⟩, ⟨nfunctor2, nfunctor4, 1⟩,
    ⟨nfunctor4, nfunctor3, 0⟩, ⟨nfunctor3, nfunctor5, 2⟩]

/-- `gd`, `__init__.py:47`. -/
def gd : Nf := ⟨"gd", nfunctorList, nfunctorRelationshipList⟩

/-- `in_relationship_list`, `__init__.py:39–43`: the path id of the first relationship between
two actions, or `-1`. -/
def inRelationshipList (l : List NfunctorRelationship) (action1 action2 : Action) : Int :=
  match l.find? (fun i ↦ action1 = i.predecessor.action ∧ action2 = i.successor.action) with
  | some i => i.pathId
  | none => -1

end Nflambda.Director

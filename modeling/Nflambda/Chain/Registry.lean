import Nflambda.Chain.NfModel

/-!
# The registry of network functions

Library `Chain`. Source `src/director/nf_registry/nf_registry.py` and the file
`src/director/nf_registry/generic_decomposed.yaml` that it reads. The names
`State`, `Action` and `Nf` of the registry are those of `nf_model.py`. Tables are
dictionaries in insertion order.
-/

namespace Nflambda.Chain

/-- An entry of the list `state` of a file; a key may be absent. -/
structure StateSpec where
  name : String
  properties : List String
  registrationId : Option Int
  deriving DecidableEq, Repr

/-- An entry of the list `action` of a file; keys may be absent. -/
structure ActionSpec where
  name : String
  state : Option String
  registrationId : Option Int
  properties : Option (List String)
  deriving DecidableEq, Repr

/-- What `yaml.safe_load` returns for a file. -/
structure NfFile where
  name : String
  state : List StateSpec
  action : List ActionSpec
  edges : List (String × List String)
  deriving DecidableEq, Repr

/-- `NF_registry`, `nf_registry.py:5–12`, with the objects it has created. -/
structure NfRegistry where
  objects : Objects
  actionTable : List (String × Nat)
  stateTable : List (String × Nat)
  nfTable : List (String × Nat)
  deriving DecidableEq, Repr

/-- Assignment to a key of a dictionary. -/
def assign (table : List (String × Nat)) (key : String) (v : Nat) : List (String × Nat) :=
  if table.any (fun e ↦ e.1 = key) then
    table.map fun e ↦ if e.1 = key then (key, v) else e
  else table ++ [(key, v)]

/-- `register(State(...))`, `nf_registry.py:27,74–75`. -/
def NfRegistry.registerState (r : NfRegistry) (s : State) : NfRegistry :=
  { r with
    objects := { r.objects with states := r.objects.states ++ [s] }
    stateTable := assign r.stateTable s.name r.objects.states.length }

/-- `register(Action(...))`, `nf_registry.py:50–51,77–78`. -/
def NfRegistry.registerAction (r : NfRegistry) (a : Action) : NfRegistry :=
  { r with
    objects := { r.objects with actions := r.objects.actions ++ [a] }
    actionTable := assign r.actionTable a.name r.objects.actions.length }

/-- `NF_registry()`, `nf_registry.py:6–12`. -/
def NfRegistry.new : NfRegistry :=
  (((⟨⟨[], [], []⟩, [], [], []⟩ : NfRegistry).registerAction
      ⟨0, "packet_in", false, [], none, none⟩).registerAction
      ⟨1, "packet_out", false, [], none, none⟩).registerAction
      ⟨2, "drop", false, [], none, none⟩

/-- The actions that the edges of a file give to an action, `nf_registry.py:43–49,55–61`. -/
def NfRegistry.dependencies (r : NfRegistry) (file : NfFile) (name : String) :
    Option (List Nat) :=
  ((file.edges.lookup name).getD []).mapM fun d ↦ r.actionTable.lookup d

/-- The body of the loop over the actions of a file, `nf_registry.py:30–63`: the registry and the
list of actions. -/
def NfRegistry.readAction (file : NfFile) (r : NfRegistry × List Nat) (j : ActionSpec) :
    Option (NfRegistry × List Nat) :=
  if j.name = "packet_in" then do
    let i ← r.1.actionTable.lookup j.name
    return (r.1, r.2 ++ [i])
  else if j.name ≠ "packet_out" ∧ j.name ≠ "drop" then do
    let registrationId ← j.registrationId
    let state ← r.1.stateTable.lookup (← j.state)
    let properties ← j.properties
    let dependencyList ← r.1.dependencies file j.name
    let i := r.1.objects.actions.length
    return (r.1.registerAction ⟨registrationId, j.name, "data_operation" ∈ properties,
      dependencyList, some state, none⟩, r.2 ++ [i])
  else do
    let i ← r.1.actionTable.lookup j.name
    let dependencyList ← r.1.dependencies file j.name
    let actions := r.1.objects.actions.modify i fun a ↦
      { a with dependenciesActionList := a.dependenciesActionList ++ dependencyList }
    return ({ r.1 with objects := { r.1.objects with actions } }, r.2 ++ [i])

/-- `NF_registry.read_file`, `nf_registry.py:14–71`, on the contents of a file. -/
def NfRegistry.readFile (r : NfRegistry) (file : NfFile) : Option NfRegistry := do
  let r ← file.state.foldlM (fun r i ↦ do
    return r.registerState ⟨i.name, "shared" ∈ i.properties, ← i.registrationId⟩) r
  let (r, actionList) ← file.action.foldlM (NfRegistry.readAction file) (r, [])
  let paths := file.edges.flatMap fun e ↦ e.2.map fun source ↦ (source, e.1)
  let (objects, nf) ← r.objects.newNf file.name actionList paths
  return { r with objects, nfTable := assign r.nfTable file.name nf }

/-- `generic_decomposed.yaml`. -/
def genericDecomposed : NfFile where
  name := "gd"
  state := [⟨"state_gdd", ["private"], some 0⟩, ⟨"state_gdc", ["private"], some 1⟩]
  action :=
    [⟨"packet_in", none, none, none⟩,
      ⟨"gd_classifier", some "state_gdd", some 3, some ["data_operation"]⟩,
      ⟨"gd_control", some "state_gdc", some 4, some ["control_operation"]⟩,
      ⟨"gd_data", some "state_gdd", some 5, some ["data_operation"]⟩,
      ⟨"packet_out", none, none, none⟩]
  edges :=
    [("gd_classifier", ["packet_in"]), ("gd_control", ["gd_classifier"]),
      ("gd_data", ["gd_classifier", "gd_control"]), ("packet_out", ["gd_data"])]

end Nflambda.Chain

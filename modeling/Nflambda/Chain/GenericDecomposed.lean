import Nflambda.Chain.Registered
import Nflambda.Chain.Scaling

/-!
# The chain of the generic decomposed network function

Library `Chain`. What the registry makes of
`src/director/nf_registry/generic_decomposed.yaml`, and the executions that
`scaling` makes when every action is executed equally often.
-/

namespace Nflambda.Chain

/-- What the registry holds after it has read the file. -/
def gdRegistry : NfRegistry := (NfRegistry.new.readFile genericDecomposed).get (by decide)

/-- The objects of the registry come from constructor calls. -/
theorem gdRegistry_created : gdRegistry.objects.Created := by
  have hread : NfRegistry.new.readFile genericDecomposed = some gdRegistry :=
    (Option.some_get _).symm
  exact (NfRegistry.new_valid.readFile hread).created

/-- The chain of the network function that the registry reads. -/
def gdSfc : Sfc :=
  (Sfc.new gdRegistry.objects [0]).get (by decide)

/-- `n` executions of every action, where execution `i` is assigned to `core i`. -/
def gdDeployment (n : Nat) (core : Nat → Int) : Option DeploymentModel := do
  let em ← scaling gdSfc (List.replicate 5 n)
  (DeploymentModel.new em).assignAll core

/-- The constructor of `Sfc` makes this chain of the only network function. -/
theorem new_gd : Sfc.new gdRegistry.objects [0] = some gdSfc := (Option.some_get _).symm

end Nflambda.Chain

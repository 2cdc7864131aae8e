import Workflow.Behavior

/-!
# Registries

A registry holds flows, as the expressions that define them, and units, under ids. A unit may be
registered under an id that is not its name. Registering under an id that is taken replaces what was
there.
-/

namespace Workflow

/-- Flows and units by id. -/
structure Registry where
  flows : Table String String := ∅
  units : Table String FlowUnit := ∅

namespace Registry

def flow? (r : Registry) (flowId : String) : Option String := r.flows.get? flowId

def unit? (r : Registry) (unitId : String) : Option FlowUnit := r.units.get? unitId

def addFlow (r : Registry) (flowId expression : String) : Registry :=
  { r with flows := r.flows.insert flowId expression }

def addUnit (r : Registry) (unitId : String) (unit : FlowUnit) : Registry :=
  { r with units := r.units.insert unitId unit }

def eraseFlow (r : Registry) (flowId : String) : Registry :=
  { r with flows := r.flows.erase flowId }

def eraseUnit (r : Registry) (unitId : String) : Registry :=
  { r with units := r.units.erase unitId }

/-- The ids of the flows in ascending order. -/
def flowIds (r : Registry) : List String := r.flows.keys

/-- The ids of the units in ascending order. -/
def unitIds (r : Registry) : List String := r.units.keys

end Registry

end Workflow

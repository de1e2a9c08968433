import Linewise.Rule.Standard

/-!
# The registry of rules

The rules of a run, in the order in which they were registered and with distinct ids. Once sealed,
the registry takes no more rules.
-/

namespace Linewise

/-- The known rules, in a list and by their ids. -/
structure Registry where
  rules : List Rule := []
  /-- The rules with their ids, latest first. -/
  byId : List (Bytes × Rule) := []
  isSealed : Bool := false

/-- Why a rule was not registered. -/
inductive RegistryError where
  | alreadySealed (id : Bytes)
  | duplicate (id : Bytes)
  deriving DecidableEq, Repr

def RegistryError.message : RegistryError → Bytes
  | alreadySealed id => utf8 "rule registry is sealed: cannot add " ++ id
  | duplicate id => utf8 "duplicate rule registration: " ++ id

namespace Registry

/-- The rule with an id. -/
def get? (r : Registry) (id : Bytes) : Option Rule := r.byId.lookup id

/-- Adds a rule at the end. -/
def register (r : Registry) (rule : Rule) : Except RegistryError Registry :=
  if r.isSealed then .error (.alreadySealed rule.id)
  else if (r.get? rule.id).isSome then .error (.duplicate rule.id)
  else .ok { r with rules := r.rules ++ [rule], byId := (rule.id, rule) :: r.byId }

/-- Adds rules one by one up to the first that is refused; those before it stay. -/
def registerAll : Registry → List Rule → Registry × Option RegistryError
  | r, [] => (r, none)
  | r, rule :: rest =>
    match r.register rule with
    | .ok r => registerAll r rest
    | .error e => (r, some e)

/-- Closes the registry: no more rules are taken. -/
def close (r : Registry) : Registry := { r with isSealed := true }

/-- The standard rules, registered. -/
def standard (tabWidth : Int := 0) : Registry :=
  (({} : Registry).registerAll (standardRules tabWidth)).1

end Registry

end Linewise

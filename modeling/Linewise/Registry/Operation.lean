import Linewise.Registry

/-!
# Registry operations

What can be asked of a registry, as data, so that a history of a registry is a list of requests. The
lists of rules that a registry hands out belong to whoever asked for them and may be written to.
-/

namespace Linewise.Registry

/-- A request to a registry, or a change to a list that it handed out. -/
inductive Operation where
  | register (rule : Rule)
  | registerStandard (tabWidth : Int)
  | close
  | get (id : Bytes)
  | list
  /-- Puts another rule at a place of one of the lists handed out. -/
  | overwrite (list place : Nat) (rule : Rule)

/-- What a registry answers. -/
inductive Reply where
  | none
  | registered (refusal : Option RegistryError)
  | found (rule : Option Rule)
  | rules (rules : List Rule)

/-- A registry and the lists it has handed out, in the order of the requests. -/
structure Usage where
  registry : Registry := {}
  handedOut : List (List Rule) := []

namespace Usage

/-- The usage after an operation, and the answer. -/
def perform (u : Usage) : Operation → Usage × Reply
  | .register rule =>
    match u.registry.register rule with
    | .ok r => ({ u with registry := r }, .registered none)
    | .error e => (u, .registered (some e))
  | .registerStandard tabWidth =>
    let (r, e) := u.registry.registerAll (standardRules tabWidth)
    ({ u with registry := r }, .registered e)
  | .close => ({ u with registry := u.registry.close }, .none)
  | .get id => (u, .found (u.registry.get? id))
  | .list =>
    ({ u with handedOut := u.handedOut ++ [u.registry.rules] }, .rules u.registry.rules)
  | .overwrite list place rule =>
    ({ u with handedOut := u.handedOut.modify list (·.set place rule) }, .none)

/-- The usage after a list of operations, and the answers. -/
def performAll : Usage → List Operation → Usage × List Reply
  | u, [] => (u, [])
  | u, op :: ops =>
    let (u, reply) := u.perform op
    let (u, replies) := u.performAll ops
    (u, reply :: replies)

end Usage

end Linewise.Registry

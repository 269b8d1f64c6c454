import Callable.Config.Basic
import Callable.Reference.Reader
/-!
The registry that a configuration describes. The named types come first, then the aliases in the
order of their names, so that an alias may use the named types and the aliases before it.
-/
namespace Callable

namespace Registry

def registerTypes (r : Registry) : List String → Logged ConfigFault Registry
  | [] => return r
  | path :: rest => do
    let r ← (r.registerLogged path (.named path)).mapError .namedType
    r.registerTypes rest

def registerAliases (limits : Reference.Limits) (r : Registry) :
    List (String × String) → Logged ConfigFault Registry
  | [] => return r
  | (name, target) :: rest => do
    let type ← .mapError (.aliasTarget name) (.ofExcept (Reference.decode limits r.scope target))
    let r ← (r.registerLogged name type).mapError (.aliasName name)
    r.registerAliases limits rest

end Registry

namespace Config

def limits (c : Config) : Reference.Limits := c.references.limits

/-- The registry of the types and aliases given, or the first fault among them. -/
def registryLogged (c : Config) : Logged ConfigFault Registry := do
  let empty : Registry := { id := c.references.context }
  let named ← empty.registerTypes c.references.namedTypes
  named.registerAliases c.limits c.references.aliases

def registry (c : Config) : Except ConfigFault Registry := c.registryLogged.outcome

end Config
end Callable

import DidCrdt.Sync.Live

/-!
# Cold starts

A request for a document that the node does not hold makes it wanted, asks the network for all of its history
again and again, and waits until the document is held or the time is up. The requests of a node share its policy:
what is wanted is a set, and every request that ends withdraws its document from it.
-/

set_option autoImplicit false
set_option relaxedAutoImplicit false

namespace DidCrdt

/-- A node, its policy, the documents that requests wait for, and the requests that ended, with whether the
document was found. -/
structure Resolver where
  node : LiveNode
  policy : BootstrapPolicy
  waiting : List Did
  ended : List (Did × Bool)

/-- What happens to a resolver: a request begins, broadcasts, looks for its document, or gives up; or a message is
received. When a peer is found to broadcast to, and when the time is up, is left open. -/
inductive ResolverEvent
  | begin (did : Did)
  | broadcast (did : Did)
  | poll (did : Did)
  | giveUp (did : Did)
  | receive (msg : SyncMessage)

namespace Resolver

/-- A node that holds nothing and that only starts solicited documents. -/
def new : Resolver := ⟨.new, .solicitedOnly, [], []⟩

/-- Whether the document is held. -/
def holds (resolver : Resolver) (did : Did) : Bool := resolver.node.docs.contains did

/-- The end of a request, which withdraws the document. -/
def finish (resolver : Resolver) (did : Did) (found : Bool) : Resolver :=
  { resolver with
    policy := resolver.policy.removeWanted did
    waiting := resolver.waiting.erase did
    ended := resolver.ended ++ [(did, found)] }

end Resolver

/-- The resolver after an event, and what it broadcasts. -/
def ResolverEvent.apply [Primitives] (resolver : Resolver) : ResolverEvent → Resolver × List SyncMessage
  | .begin did =>
    ({ resolver with
        policy := resolver.policy.addWanted did
        waiting := resolver.waiting ++ [did] }, [])
  | .broadcast did =>
    if resolver.waiting.contains did then (resolver, [.request did []]) else (resolver, [])
  | .poll did =>
    if resolver.waiting.contains did && resolver.holds did then (resolver.finish did true, [])
    else (resolver, [])
  | .giveUp did =>
    if resolver.waiting.contains did then (resolver.finish did false, []) else (resolver, [])
  | .receive msg =>
    let (node, outgoing) := resolver.node.receive resolver.policy msg
    ({ resolver with node := node }, outgoing)

/-- The resolver after some events. -/
def Resolver.run [Primitives] (resolver : Resolver) (events : List ResolverEvent) : Resolver :=
  events.foldl (fun resolver event ↦ (event.apply resolver).1) resolver

end DidCrdt

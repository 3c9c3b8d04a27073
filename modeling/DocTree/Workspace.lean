import DocTree.Event
import DocTree.Store.Surgery

/-!
The state in which trees are made: a store of nodes and the trace so far. A step that fails leaves
the workspace as it was at the failure, abandoned nodes included.
-/
namespace DocTree

structure Workspace where
  store : Store
  trace : Array Event
  deriving Inhabited

namespace Workspace

def empty : Workspace := ⟨.empty, #[]⟩

variable {ε : Type}

def newNode (label : Label Value) : EStateM ε Workspace NodeId :=
  fun w => .ok w.store.fresh { w with store := w.store.push label }

def edit (change : Store → Store) : EStateM ε Workspace Unit :=
  fun w => .ok () { w with store := change w.store }

def record (event : Event) : EStateM ε Workspace Unit :=
  fun w => .ok () { w with trace := w.trace.push event }

def onlyIf (condition : Bool) (step : EStateM ε Workspace Unit) : EStateM ε Workspace Unit :=
  if condition then step else pure ()

end Workspace

end DocTree

/-
# Handles on scopes

Two scopes can hold the same bindings and still be different chains. A handle keeps a
scope together with the mark of the frame on top of it, which was given out when that
frame was pushed: handles denote one chain exactly when their marks agree. Pushing no
binding keeps the mark, because it keeps the chain.
-/

import ScopedGrammar.Scope.Basic

namespace ScopedGrammar.Scope

/-- A scope and the mark of its top frame; the chain without frames has no mark. -/
structure Handle where
  scope : Scope
  mark : Option Nat

/-- The handle on the empty scope. -/
def Handle.empty : Handle :=
  ⟨Scope.empty, none⟩

/-- The handle after one push. The mark is for the new frame and must be fresh. -/
def Handle.push (handle : Handle) (fresh : Nat) (frame : Frame) : Handle :=
  match frame with
  | [] => handle
  | first :: rest => ⟨handle.scope.push (first :: rest), some fresh⟩

/-- Whether two handles denote one chain. -/
def Handle.sameChain (first second : Handle) : Bool :=
  first.mark == second.mark

end ScopedGrammar.Scope

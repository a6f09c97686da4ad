import Fexpr.Session.Basic

/-!
# Evaluating once

A script is compiled and evaluated in a context of its own.
-/

namespace Fexpr

/-- A script to be evaluated once. -/
structure Once where
  /-- The script. -/
  source : Source
  /-- What is bound besides the library. -/
  env : List (String × Recipe)
  /-- Whether the library is bound. -/
  withLibrary : Bool
  /-- The limit of calls in progress. -/
  maxDepth : Nat
  /-- How the data of the host is reached. -/
  data : DataAccess

namespace Once

/-- How the evaluation ended. -/
inductive Result where
  /-- With a reply. The data of the host and the number of scopes after it are given. -/
  | reply (r : Reply Builtin) (host : HostData) (scopes : Nat)
  /-- It was given up. -/
  | abort (a : Abort)

/-- Compiles and evaluates. -/
def run (o : Once) : Result :=
  let (env, next) := Session.initialEnvironment o.env o.withLibrary 0
  let world : World Builtin := ⟨.new 0 env o.maxDepth o.data, .fresh, next⟩
  match Program.compile o.source with
  | .error e => .reply (.error e) world.host world.context.arena.size
  | .ok p =>
    match world.run Library.host p with
    | .reply r w => .reply r w.host w.context.arena.size
    | .abort a => .abort a

end Once

end Fexpr

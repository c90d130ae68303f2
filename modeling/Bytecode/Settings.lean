/-!
# Settings

What a run of the optimizer is asked to do. The number of threads bounds how many workers are on their way at a time and
so restricts the orders in which their steps come; nothing else is read from it, and a scheduler is given the order itself.
A parallel scan of the bodies collects what it finds in the order of the methods, as a scan one after another does.
-/

namespace Bytecode

structure Settings where
  /-- Run the elimination of redundant field loads. -/
  eliminateLoads : Bool := true
  /-- Use facts that need the whole program: resolution beyond the own class, and summaries of initializers. -/
  wholeProgram : Bool := true
  /-- Map initialization checks to static fields. -/
  synthesizeInitFields : Bool := true
  /-- Scan the bodies for the call graph in parallel. -/
  parallelScan : Bool := true
  /-- The number of workers, or as many as the machine offers. -/
  threads : Option Nat := none
  /-- Check every body that a pass changed. -/
  verifyBodies : Bool := true
deriving DecidableEq, Inhabited

end Bytecode

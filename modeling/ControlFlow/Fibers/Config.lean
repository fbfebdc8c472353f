import ControlFlow.Document.Reader

/-! # Configuration of a scheduler

The stack size of its fibers and the number of idle fibers that it keeps. A configuration has to
be checked before a scheduler uses it.
-/

namespace ControlFlow.Fibers

/-- The sizes that a scheduler works with. -/
structure Config where
  /-- The bytes of stack of each fiber. -/
  stackSize : Nat
  /-- How many idle fibers are kept for reuse. -/
  cacheSize : Nat
deriving DecidableEq

/-- Why a configuration is refused. -/
inductive ConfigFault where
  | stackTooSmall (size : Nat)
  | cacheSize (size : Nat)
  | unreadable (why : ReadFault)
deriving DecidableEq

namespace Config

def standard : Config := ⟨262144, 100⟩

def minStackSize : Nat := 16384

/-- The greatest number of idle fibers that may be kept. -/
def maxCacheSize : Nat := 1024

/-- Check the stack size first and then the cache size, which is at least one. -/
def check (c : Config) : Except ConfigFault Config :=
  if c.stackSize < minStackSize then .error (.stackTooSmall c.stackSize)
  else if 1 ≤ c.cacheSize ∧ c.cacheSize ≤ maxCacheSize then .ok c
  else .error (.cacheSize c.cacheSize)

/-- The form of a configuration: both fields may be missing, and no other is allowed. -/
def schema : Schema Unit := fun _ =>
  .record
    [.defaulted "stack_size" (.unsigned 64) (.number standard.stackSize),
      .defaulted "cache_size" (.unsigned 64) (.number standard.cacheSize)] true

def toDocument (c : Config) : Document :=
  .object [("stack_size", .number c.stackSize), ("cache_size", .number c.cacheSize)]

/-- The configuration that a document stands for. -/
def ofDocument? : Document → Option Config
  | .object [(_, .number stack), (_, .number cache)] => some ⟨stack.toNat, cache.toNat⟩
  | _ => none

/-- Read and check a configuration. -/
def parse (text : String) : Except ConfigFault Config :=
  match Document.read schema (.form ()) text with
  | .error fault => .error (.unreadable fault)
  | .ok d =>
      match ofDocument? d with
      | some c => c.check
      | none => .error (.unreadable .malformed)

def compact (c : Config) : String := c.toDocument.render Document.compact

end Config

/-- The wording of a fault of a configuration; for a text that cannot be read it is that of the
mismatch, if there is one. -/
def ConfigFault.message : ConfigFault → Option String
  | .stackTooSmall size =>
      some ("fiber stack size " ++ Text.decimal size ++ " is below the minimum of " ++
        Text.decimal Config.minStackSize ++ " bytes")
  | .cacheSize size =>
      some ("fiber cache size " ++ Text.decimal size ++ " is outside 1..=" ++
        Text.decimal Config.maxCacheSize)
  | .unreadable (.mismatch how) => some how.message
  | .unreadable _ => none

end ControlFlow.Fibers

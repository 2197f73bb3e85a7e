import PodCompiler.Lowering.Jump

namespace PodCompiler.Lowering

-- A constant of the pool. `typeLiteral` is the field in which the class keeps a type it looked up.
inductive Ref where
  | class_ (name : String)
  | string (text : String)
  | field (sig : String)
  | method (sig : String)
  | interfaceMethod (sig : String)
  | typeLiteral (signature : String)
  deriving DecidableEq, Repr

-- What an instruction is lowered to, before it has a position: instructions of the machine, and marks
-- between them. A constant is named until it has an index in the pool.
inductive Item (ρ : Type) where
  -- The instruction at `pos` of the method begins here.
  | mark (pos : Nat)
  -- The constant is in the pool from here on.
  | reserve (r : ρ)
  | op (o : UInt8)
  | byte (o x : UInt8)
  | const (o : UInt8) (r : ρ)
  | interface (r : ρ) (slots : UInt8)
  | load (t : StackType) (slot : UInt16)
  | store (t : StackType) (slot : UInt16)
  -- An instruction on a slot that is never compact.
  | onSlot (o : UInt8) (slot : UInt16)
  -- A jump by a fixed distance.
  | hop (o : UInt8) (distance : UInt16)
  -- A jump to an instruction of the method.
  | jump (kind : JumpKind) (o : UInt8) (target : UInt16)
  | switch (targets : List UInt16)
  -- A copy of the finally block at `finallyStart` begins, and ends; its instructions are those in
  -- `[finallyStart + 1, stop)`.
  | enter
  | leave (site finallyStart stop : Nat)
  deriving DecidableEq, Repr

namespace Item

variable {ρ σ : Type}

-- Replaces the constant of an item.
def mapM {m : Type → Type} [Monad m] (f : ρ → m σ) : Item ρ → m (Item σ)
  | .mark pos => pure (.mark pos)
  | .reserve r => Item.reserve <$> f r
  | .op o => pure (.op o)
  | .byte o x => pure (.byte o x)
  | .const o r => Item.const o <$> f r
  | .interface r slots => (Item.interface · slots) <$> f r
  | .load t slot => pure (.load t slot)
  | .store t slot => pure (.store t slot)
  | .onSlot o slot => pure (.onSlot o slot)
  | .hop o distance => pure (.hop o distance)
  | .jump kind o target => pure (.jump kind o target)
  | .switch targets => pure (.switch targets)
  | .enter => pure .enter
  | .leave site finallyStart stop => pure (.leave site finallyStart stop)

-- A call of a static, and of a virtual method.
def callStatic (sig : String) : Item Ref :=
  .const ClassFile.Op.invokeStatic (.method sig)

def callVirtual (sig : String) : Item Ref :=
  .const ClassFile.Op.invokeVirtual (.method sig)

end Item

end PodCompiler.Lowering

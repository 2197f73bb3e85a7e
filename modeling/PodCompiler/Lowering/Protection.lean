import PodCompiler.Lowering.OpenClass
import PodCompiler.Lowering.Relocation

namespace PodCompiler.Lowering

open ClassFile (CodeBuffer)
open Pod (ErrEntry)

namespace Protection

-- Whether an entry, with its handler, lies in the instructions of a copy.
def inside (c : InlineCopy) (e : ErrEntry) : Bool :=
  c.start ≤ e.start.toNat && e.stop.toNat ≤ c.stop && c.start ≤ e.handler.toNat &&
    e.handler.toNat < c.stop

-- Whether the entry protects the instruction at a position.
def covers (e : ErrEntry) (pos : Nat) : Bool :=
  e.start.toNat ≤ pos && pos < e.stop.toNat

-- The code of the copies that an entry does not protect although they stand in its range, in order.
def holes (r : Relocation) (scope : Nat) (e : ErrEntry) : List (Nat × Nat) :=
  let copies := (r.children scope).filter fun c => covers e c.site && !covers e c.finallyStart
  (copies.map fun c => (c.javaStart, c.javaEnd)).mergeSort fun a b =>
    a.1 < b.1 || (a.1 = b.1 && a.2 ≤ b.2)

-- The range from `start` to `stop` without the holes.
def pieces (stop : Nat) : (start : Nat) → List (Nat × Nat) → List (Nat × Nat)
  | start, [] => if start < stop then [(start, stop)] else []
  | start, (first, last) :: rest =>
    if last ≤ start || stop ≤ first then pieces stop start rest
    else
      (if start < first then [(start, first)] else []) ++ pieces stop (max start last) rest

-- The class that is thrown for an error of the type; none for those that every exception is.
def carrier? (t : TypeRef) : Option String :=
  if t.isSys && t.name = "Err" then none
  else if t.isFfi then some t.jname
  else some (t.jname ++ "$Val")

-- The exception of the machine that an error of `sys` stands for too.
def hostException? (t : TypeRef) : Option String :=
  if t.isSys then
    match t.name with
    | "NullErr" => some "java/lang/NullPointerException"
    | "CastErr" => some "java/lang/ClassCastException"
    | "IndexErr" => some "java/lang/IndexOutOfBoundsException"
    | "ArgErr" => some "java/lang/IllegalArgumentException"
    | "IOErr" => some "java/io/IOException"
    | "InterruptedErr" => some "java/lang/InterruptedException"
    | "UnsupportedErr" => some "java/lang/UnsupportedOperationException"
    | _ => none
  else none

-- The indices of the classes that catch errors of the type. Zero catches everything.
def catchTypes (t : TypeRef) : ClassM (List UInt16) := do
  let carrier ← match carrier? t with
    | some cls => Ref.intern (.class_ cls)
    | none => pure 0
  match hostException? t with
  | some cls => return [carrier, ← Ref.intern (.class_ cls)]
  | none => return [carrier]

-- The position of an instruction, which must be known.
def position (r : Relocation) (method : String) (scope : Nat) (pos : UInt16) :
    Except LoweringError Nat :=
  match r.get scope pos.toNat with
  | some java => .ok java
  | none => .error (.missingReloc pos method)

-- The entries for a protected range: one for each piece and each class that is caught.
def entries (handler : Nat) (types : List UInt16) (ps : List (Nat × Nat)) :
    List ClassFile.ExceptionEntry :=
  ps.flatMap fun (start, stop) => types.map fun type =>
    { startPc := start.toUInt16
      endPc := stop.toUInt16
      handlerPc := handler.toUInt16
      catchType := type }

-- What an entry of the method becomes in a scope. Its range may come in pieces, as copies that belong
-- to a block outside of it are not protected by it.
def ofEntry (r : Relocation) (method : String) (scope : Nat) (e : ErrEntry) :
    ClassM (List ClassFile.ExceptionEntry) := do
  let start ← ofExcept (position r method scope e.start)
  let stop ← ofExcept (position r method scope e.stop)
  let handler ← ofExcept (position r method scope e.handler)
  let types ← catchTypes (← ClassM.typeRef e.type)
  return entries handler types (pieces stop start (holes r scope e))

-- The entries that a scope has: the main scope all of them, a copy those inside it.
def inScope (r : Relocation) (scope : Nat) (es : List ErrEntry) : List ErrEntry :=
  if scope = Relocation.mainScope then es
  else
    match r.copy scope with
    | some c => es.filter (inside c)
    | none => []

-- All entries of the code, scope by scope in the order in which the copies were begun.
def table (r : Relocation) (method : String) (es : List ErrEntry) :
    ClassM (List ClassFile.ExceptionEntry) := do
  let found ← (List.range r.scopes.size).mapM fun scope =>
    (inScope r scope es).mapM (ofEntry r method scope)
  return found.flatten.flatten

end Protection

end PodCompiler.Lowering

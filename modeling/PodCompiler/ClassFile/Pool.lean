import Std.Data.HashMap
import PodCompiler.ClassFile.Constant
import PodCompiler.ClassFile.Signature

namespace PodCompiler.ClassFile

-- The constants in order of insertion, the index of each, and the next free index.
structure Pool where
  entries : Array Constant := #[]
  index : Std.HashMap Constant UInt16 := ∅
  next : Nat := 1

-- An insertion into a pool. If it fails, the parts of a compound constant that it has inserted stay.
abbrev PoolM := EStateM ClassError Pool

namespace Pool

-- The number that is written before the constants, one more than the last index.
def count (p : Pool) : UInt16 :=
  p.next.toUInt16

def size (p : Pool) : Nat :=
  p.entries.size

-- The largest value of `next`.
def limit : Nat := 0xFFFF

-- The index of a constant, which is inserted if it is new. A long or a double takes two indices.
def add (c : Constant) : PoolM UInt16 := fun p =>
  match p.index[c]? with
  | some i => .ok i p
  | none =>
    if p.next + c.width ≤ limit then
      let i := p.next.toUInt16
      .ok i ⟨p.entries.push c, p.index.insert c i, p.next + c.width⟩
    else .error .poolOverflow p

def utf8 (s : String) : PoolM UInt16 :=
  add (.utf8 s)

def class_ (name : String) : PoolM UInt16 := do
  let n ← utf8 name
  add (.class n)

def string (s : String) : PoolM UInt16 := do
  let n ← utf8 s
  add (.string n)

def nameAndType (name desc : String) : PoolM UInt16 := do
  let n ← utf8 name
  let d ← utf8 desc
  add (.nameAndType n d)

-- A reference to a member, made of its owner, its name and its descriptor in this order.
def member (mk : UInt16 → UInt16 → Constant) (m : Except ClassError Member) : PoolM UInt16 := do
  match m with
  | .error e => throw e
  | .ok m =>
    let c ← class_ m.owner
    let nt ← nameAndType m.name m.desc
    add (mk c nt)

def field (sig : String) : PoolM UInt16 :=
  member .fieldref (Member.ofField sig)

def method (sig : String) : PoolM UInt16 :=
  member .methodref (Member.ofMethod sig)

def interfaceMethod (sig : String) : PoolM UInt16 :=
  member .interfaceMethodref (Member.ofMethod sig)

-- The constant at an index.
def get? (p : Pool) (i : UInt16) : Option Constant :=
  p.entries.find? fun c => p.index[c]? = some i

def hasClass (p : Pool) (name : String) : Bool :=
  match p.index[Constant.utf8 name]? with
  | some n => p.index.contains (.class n)
  | none => false

-- Appends the pool to a class file.
def put (b : Bytes) (p : Pool) : Bytes :=
  p.entries.foldl Constant.put (b.put2 p.count)

end Pool

end PodCompiler.ClassFile

import PodCompiler.ClassFile.Error

namespace PodCompiler.ClassFile

-- A member of a class: `owner.name:desc` for a field, `owner.name(args)ret` for a method, where the
-- descriptor of a method starts with its bracket.
structure Member where
  owner : String
  name : String
  desc : String
  deriving DecidableEq, Repr

namespace Member

-- Cuts at the last dot.
def splitOwner (cs : List Char) : Option (List Char × List Char) :=
  match cs.reverse.span (· ≠ '.') with
  | (_, []) => none
  | (name, _ :: owner) => some (owner.reverse, name.reverse)

-- The three parts of a member, where `left` stands before the descriptor. An owner and a name are
-- never empty.
def ofParts? (left desc : List Char) : Option Member :=
  match splitOwner left with
  | none => none
  | some (owner, name) =>
    if owner.isEmpty || name.isEmpty then none
    else some ⟨String.ofList owner, String.ofList name, String.ofList desc⟩

-- Cuts a field signature at its first colon and the last dot before it.
def ofField (sig : String) : Except ClassError Member :=
  match sig.toList.span (· ≠ ':') with
  | (_, []) => .error (.badSignature sig)
  | (left, _ :: desc) =>
    match if desc.isEmpty then none else ofParts? left desc with
    | some m => .ok m
    | none => .error (.badSignature sig)

-- Cuts a method signature at its first bracket and the last dot before it.
def ofMethod (sig : String) : Except ClassError Member :=
  match sig.toList.span (· ≠ '(') with
  | (_, []) => .error (.badSignature sig)
  | (left, desc) =>
    match ofParts? left desc with
    | some m => .ok m
    | none => .error (.badSignature sig)

end Member

end PodCompiler.ClassFile

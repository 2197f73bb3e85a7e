import PodCompiler.Bytes

namespace PodCompiler.Archive

-- Named entries in the order in which their names first came up. No name stands twice.
structure Entries where
  items : Array (String × Bytes) := #[]

namespace Entries

def size (e : Entries) : Nat :=
  e.items.size

def names (e : Entries) : Array String :=
  e.items.map (·.1)

def get? (e : Entries) (name : String) : Option Bytes :=
  (e.items.find? (·.1 = name)).map (·.2)

-- Gives an entry new data; it keeps its place, and a new one goes last.
def insert (e : Entries) (name : String) (data : Bytes) : Entries :=
  if e.items.any (·.1 = name) then
    ⟨e.items.map fun item => if item.1 = name then (name, data) else item⟩
  else ⟨e.items.push (name, data)⟩

def erase (e : Entries) (name : String) : Entries :=
  ⟨e.items.filter (·.1 ≠ name)⟩

end Entries

end PodCompiler.Archive

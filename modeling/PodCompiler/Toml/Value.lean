namespace PodCompiler.Toml

-- How a table came to be: by its own header, by the header of a table inside it, by a key with
-- dots, or in braces, which closes it.
inductive TableForm where
  | header
  | implied
  | dotted
  | inline
  deriving DecidableEq, Repr

-- A value. What a float or a date is exactly does not matter here.
inductive Value where
  | string (text : String)
  | integer (value : Int)
  | float
  | boolean (value : Bool)
  | dateTime
  | array (items : List Value)
  | table (form : TableForm) (entries : List (String × Value))
  | tables (items : List (List (String × Value)))

structure Table where
  form : TableForm
  entries : List (String × Value)

namespace Table

-- The root of a document.
def empty : Table := ⟨.header, []⟩

def get? (t : Table) (key : String) : Option Value :=
  (t.entries.find? (·.1 = key)).map (·.2)

-- Gives a key its value, in the place of the one that it has.
def set (t : Table) (key : String) (v : Value) : Table :=
  if (t.get? key).isSome then
    { t with entries := t.entries.map fun e => if e.1 = key then (key, v) else e }
  else { t with entries := t.entries ++ [(key, v)] }

def toValue (t : Table) : Value :=
  .table t.form t.entries

-- Changes the table at a path, which is made if it is not there. A list of tables stands for its
-- last one. A key with dots does not lead into a table with a header of its own.
def within (dotted : Bool) (f : Table → Option Table) :
    (path : List String) → Table → Option Table
  | [], t => f t
  | key :: path, t => do
    match t.get? key with
    | none =>
      let child ← within dotted f path ⟨if dotted then .dotted else .implied, []⟩
      return t.set key child.toValue
    | some (.table form entries) =>
      if form = .inline || (dotted && form = .header) then none
      else
        let child ← within dotted f path ⟨form, entries⟩
        return t.set key child.toValue
    | some (.tables items) =>
      let last ← items.getLast?
      let child ← within dotted f path ⟨.header, last⟩
      return t.set key (.tables (items.dropLast ++ [child.entries]))
    | some _ => none

-- Gives a key its first and only value.
def insertNew (key : String) (v : Value) (t : Table) : Option Table :=
  if (t.get? key).isSome then none else some (t.set key v)

-- Sets `path.key`. Keys with dots and headers do not share a table.
def put (path : List String) (key : String) (v : Value) (t : Table) : Option Table :=
  t.within true (fun child =>
    if (child.form = .dotted) = (path = []) then none else child.insertNew key v) path

-- What a header does to the table that it names.
def openTable (key : String) (parent : Table) : Option Table :=
  match parent.get? key with
  | none => some (parent.set key (.table .header []))
  | some (.table .implied entries) => some (parent.set key (.table .header entries))
  | some _ => none

-- What the header of a list item does: the list has one more table.
def openItem (key : String) (parent : Table) : Option Table :=
  match parent.get? key with
  | none => some (parent.set key (.tables [[]]))
  | some (.tables items) => some (parent.set key (.tables (items ++ [[]])))
  | some _ => none

end Table

end PodCompiler.Toml

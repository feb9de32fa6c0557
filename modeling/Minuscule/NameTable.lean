/-!
Tables of named entries. A table keeps its entries in the order in which they came and, next to them, an index that
says at which place the entry of a name stands. A name is looked up in the index alone, and what is found there leads
to the entry.
-/

namespace Minuscule

structure NameTable (Entry : Type) where
  entries : List Entry
  /-- Names and their places, the latest name first. -/
  index : List (String × Nat)
  deriving DecidableEq, Repr

namespace NameTable
variable {Entry : Type}

def empty : NameTable Entry := ⟨[], []⟩

def contains (table : NameTable Entry) (name : String) : Bool :=
  (table.index.lookup name).isSome

def find? (table : NameTable Entry) (name : String) : Option Entry :=
  (table.index.lookup name).bind (table.entries[·]?)

def size (table : NameTable Entry) : Nat :=
  table.entries.length

def isEmpty (table : NameTable Entry) : Bool :=
  table.entries.isEmpty

/-- The table with an entry at its end, to be found by a name. -/
def append (table : NameTable Entry) (name : String) (entry : Entry) : NameTable Entry :=
  ⟨table.entries ++ [entry], (name, table.entries.length) :: table.index⟩

end NameTable

end Minuscule

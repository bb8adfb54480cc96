/-!
# View — documents

Renderers and debugging tools see the engine through documents: trees of records, lists, texts and
numbers that say what is exported and leave the spelling to the one who writes them.
-/

namespace Mosaic

/-- A tree of exported values. -/
inductive Document (α : Type) where
  | null
  | flag (b : Bool)
  | integer (n : Int)
  | number (x : α)
  | text (s : String)
  | list (items : List (Document α))
  | record (fields : List (String × Document α))

namespace Document

variable {α β : Type}

/-- A natural number. -/
def natural (n : Nat) : Document α := integer n

/-- The documents of the items of an array. -/
def ofArray (f : β → Document α) (xs : Array β) : Document α := list (xs.toList.map f)

/-- The document of an optional value. -/
def ofOption (f : β → Document α) : Option β → Document α
  | some b => f b
  | none => null

end Document

end Mosaic

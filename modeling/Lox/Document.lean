/-!
# Documents

The shape of everything that is handed to another program: answers to requests, and syntax trees
for inspection. Whole numbers that count something are kept apart from the numbers of the language,
because the two are written differently.
-/

namespace Lox

/-- A tree of plain data. The fields of a record are kept in order. -/
inductive Document where
  | null
  | bool (value : Bool)
  | count (value : Int)
  | number (value : Float)
  | text (value : String)
  | list (items : List Document)
  | record (fields : List (String × Document))
  deriving Inhabited, Repr

namespace Document

/-- Nothing, or a document. -/
def ofOption {α : Type} (f : α → Document) : Option α → Document
  | none => .null
  | some a => f a

/-- Whether a document has more levels than a bound. -/
def isDeeperThan : Nat → Document → Bool
  | 0, _ => true
  | levels + 1, .list items => items.any (isDeeperThan levels)
  | levels + 1, .record fields => fields.any fun f ↦ isDeeperThan levels f.2
  | _ + 1, _ => false

end Document

end Lox

import Lox.Store
import Lox.Text.Quoted

/-!
# Environments

A frame is a record that holds the bindings of one scope while a program runs. An environment is a
chain of frames: the frame of the innermost scope, the one around it, and so on. Chains are plain
lists of numbers, so they are finite and have no cycles, and nothing that happens to the store can
link them anew. A closure keeps the chain of the scope it was made in, and two chains may share
frames.

A name is found in two ways. A search goes outward and takes the first frame that binds the name;
access by distance goes to one frame and insists that the name is bound there.
-/

namespace Lox

/-- A chain of frames, the innermost first. -/
abbrev Environment := List RecordId

/-- What can be wrong with a distance. -/
inductive Desync where
  /-- There are not that many frames. -/
  | noFrame (distance : Int)
  | unbound (name : String) (distance : Int)
  deriving DecidableEq, Repr

def Desync.message : Desync → String
  | noFrame distance => "No scope frame at distance " ++ toString distance ++ "."
  | unbound name distance =>
    "'" ++ name ++ "' is not bound at distance " ++ toString distance ++ "."

/-- The frames further out by some distance. A distance below zero stays where it is. -/
def Environment.ancestor (env : Environment) (distance : Int) : Except Desync Environment :=
  match env.drop distance.toNat with
  | [] => .error (.noFrame distance)
  | outer => .ok outer

namespace Store

variable {α : Type}

/-! ## Search -/

/-- Binds a name in the innermost frame. -/
def define (s : Store α) (env : Environment) (name : String) (a : α) : Store α :=
  match env with
  | [] => s
  | frame :: _ => s.bind frame name a

/-- The first frame outward that binds a name. -/
def frameOf? (s : Store α) (env : Environment) (name : String) : Option RecordId :=
  env.find? fun frame ↦ (s.record frame).contains name

/-- What a name is bound to in the first frame outward that binds it. -/
def get? (s : Store α) (env : Environment) (name : String) : Option α :=
  (s.frameOf? env name).bind fun frame ↦ (s.record frame).get? name

/-- Binds a name anew in the first frame outward that binds it. -/
def assign? (s : Store α) (env : Environment) (name : String) (a : α) : Option (Store α) :=
  (s.frameOf? env name).map fun frame ↦ s.bind frame name a

/-! ## Access by distance -/

/-- The frame at a distance, and what it binds a name to. -/
def findAt (s : Store α) (env : Environment) (distance : Int) (name : String) :
    Except Desync (RecordId × α) := do
  let outer ← env.ancestor distance
  match outer.head?.bind fun frame ↦ ((s.record frame).get? name).map (frame, ·) with
  | some found => return found
  | none => throw (.unbound name distance)

/-- What a name is bound to in the frame at a distance. -/
def getAt (s : Store α) (env : Environment) (distance : Int) (name : String) : Except Desync α :=
  return (← s.findAt env distance name).2

/-- Binds a name anew in the frame at a distance, where it must be bound already. -/
def assignAt (s : Store α) (env : Environment) (distance : Int) (name : String) (a : α) :
    Except Desync (Store α) :=
  return s.bind (← s.findAt env distance name).1 name a

/-! ## Summary -/

/-- A summary of an environment: the names in its innermost frame, in the order of their code
points, and whether there are frames outside of it. -/
def summary (s : Store α) (env : Environment) : String :=
  let names := match env with
    | [] => []
    | frame :: _ => (s.record frame).sortedNames
  "Environment([" ++ ", ".intercalate (names.map Text.quoted) ++ "])"
    ++ (if env.length > 1 then " -> ..." else "")

end Store

end Lox

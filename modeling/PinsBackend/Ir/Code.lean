import PinsBackend.Ir.Effects
import PinsBackend.Layout.Frame

/-! The code of a function and of a whole program, with bodies of either kind: one statement for
tree code, a list of statements for linear code. -/
namespace PinsBackend.Ir

structure Chunk (Body : Type) where
  frame : Frame
  /-- Leaves the result of the function in `Temp.rv`. -/
  body : Body
  deriving DecidableEq

structure Program (Body : Type) where
  /-- One chunk a function, nested functions before the function around them. -/
  chunks : List (Chunk Body)
  globals : List Global
  /-- Runs the global initializers. -/
  init : Chunk Body
  /-- The label of the function that starts the program. -/
  entry : String
  deriving DecidableEq

/-- The chunk a label calls; of two chunks with one label the later counts. -/
def Program.chunk? {Body : Type} (p : Program Body) (label : String) : Option (Chunk Body) :=
  (p.init :: p.chunks).foldl (fun found c => if c.frame.label = label then some c else found) none

abbrev TreeProgram := Program Stmt

abbrev LinearProgram := Program (List Stmt)

def Chunk.isCanonical (c : Chunk (List Stmt)) : Bool :=
  c.body.all Stmt.isCanonical

def LinearProgram.statementCount (p : LinearProgram) : Nat :=
  p.chunks.foldl (fun n c => n + c.body.length) p.init.body.length

end PinsBackend.Ir

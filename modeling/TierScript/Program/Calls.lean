import TierScript.Program.Basic

/-!
# The calls of a program
-/

namespace TierScript

mutual

/-- The calls in a block with the modules they name: those of its statements in order, then those of
    the functions defined in it. -/
def Block.calls : Block → List (Option String × Call)
  | ⟨stmts, functions, _⟩ => Stmt.callsAll stmts ++ FnDef.callsAll functions

/-- The calls in an optional block. -/
def Block.callsOption : Option Block → List (Option String × Call)
  | none => []
  | some b => Block.calls b

/-- The calls in the body of a function. -/
def FnDef.calls : FnDef → List (Option String × Call)
  | ⟨_, _, _, body, _⟩ => Block.calls body

/-- The calls in the bodies of functions. -/
def FnDef.callsAll : List FnDef → List (Option String × Call)
  | [] => []
  | f :: fs => FnDef.calls f ++ FnDef.callsAll fs

/-- The calls in a statement. -/
def Stmt.calls : Stmt → List (Option String × Call)
  | .block body => Block.calls body
  | .ifElse _ body otherwise _ => Block.calls body ++ Block.callsOption otherwise
  | .whileLoop _ body _ => Block.calls body
  | .forLoop _ _ body _ => Block.calls body
  | .call c => [(none, c)]
  | .moduleCall m c => [(some m, c)]
  | .assign .. | .breakLoop _ | .endCode _ => []

/-- The calls in statements. -/
def Stmt.callsAll : List Stmt → List (Option String × Call)
  | [] => []
  | s :: ss => Stmt.calls s ++ Stmt.callsAll ss

end

end TierScript

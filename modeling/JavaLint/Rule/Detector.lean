import JavaLint.Rule.BooleanInstantiation
import JavaLint.Rule.DuplicateImport
import JavaLint.Rule.FinallyExit

/-!
# Detectors

The detector of a rule is what it looks for. Besides the shipped ones there are detectors given by a table
of handlers, one per kind of node.
-/

namespace JavaLint

/-- What a handler does with a node of its kind. -/
inductive HandlerAction where
  | flagNode
  | flagFile
  | ignore
  | fail
  deriving DecidableEq, Repr

/-- The handler of one kind of node. `descends` says whether the visit goes on below the node. -/
structure Handler where
  kind : String
  action : HandlerAction
  message : Option String
  descends : Bool
  deriving DecidableEq, Repr

/-- The response of a handler to a node of its kind. -/
def Handler.respond (handler : Handler) (n : Node) : Response :=
  let scan : Scan := match handler.action with
    | .flagNode => ⟨[⟨some n, handler.message⟩], none⟩
    | .flagFile => ⟨[⟨none, handler.message⟩], none⟩
    | .ignore => .empty
    | .fail => ⟨[], some ⟨handler.message⟩⟩
  ⟨scan, handler.descends⟩

/-- What a rule looks for. -/
inductive Detector where
  | nothing
  | booleanReturnsNull
  | duplicateImport
  | finallyExit (exit : FinallyExit)
  | booleanInstantiation
  | handlers (table : List Handler)
  deriving DecidableEq, Repr

namespace Detector

/-- The response of a table of handlers: the last handler for the node's kind answers, and a node without
    one is passed. -/
def respondBy (table : List Handler) (n : Node) : Response :=
  match table.reverse.find? (·.kind == n.kind) with
  | some handler => handler.respond n
  | none => .pass

/-- The response of a detector to a node of a source. -/
def respond (source : Bytes) : Detector → Node → Response
  | .nothing, _ => .pass
  | .booleanReturnsNull, n => BooleanReturnsNull.respond source n
  | .duplicateImport, n => DuplicateImport.respond source n
  | .finallyExit exit, n => exit.respond n
  | .booleanInstantiation, n => BooleanInstantiation.respond source n
  | .handlers table, n => respondBy table n

end Detector

end JavaLint

import ClosureCode.Program

/-! The text of a node. Operators and indexing are always parenthesised; statements
of a block follow each other without a separator. Lists are written onto the text
so far, so the work is linear in the number of items. -/
namespace ClosureCode

mutual

def Expr.render : Expr → String
  | .name name _ => name
  | .integer value _ => toString value.toInt
  | .string value _ => value
  | .boolean value _ => toString value
  | .unary op operand _ => "(" ++ op.symbol ++ operand.render ++ ")"
  | .binary op left right _ => "(" ++ left.render ++ " " ++ op.symbol ++ " " ++ right.render ++ ")"
  | .conditional condition consequence none _ => "if" ++ condition.render ++ " " ++ consequence.render
  | .conditional condition consequence (some alternative) _ =>
      "if" ++ condition.render ++ " " ++ consequence.render ++ "else " ++ alternative.render
  | .function none parameters body _ =>
      "fn(" ++ ", ".intercalate (parameters.map Binder.name) ++ ") " ++ body.render
  | .function (some name) parameters body _ =>
      "fn<" ++ name ++ ">(" ++ ", ".intercalate (parameters.map Binder.name) ++ ") " ++ body.render
  | .call callee arguments _ => writeItems (callee.render ++ "(") arguments ++ ")"
  | .array elements _ => writeItems "[" elements ++ "]"
  | .hash pairs _ => writePairs "\x7b" pairs ++ "\x7d"
  | .index collection position _ => "(" ++ collection.render ++ "[" ++ position.render ++ "])"

def writeItems (out : String) : List Expr → String
  | [] => out
  | e :: rest => writeMoreItems (out ++ e.render) rest

def writeMoreItems (out : String) : List Expr → String
  | [] => out
  | e :: rest => writeMoreItems (out ++ ", " ++ e.render) rest

def writePairs (out : String) : List (Expr × Expr) → String
  | [] => out
  | (key, value) :: rest => writeMorePairs (out ++ key.render ++ ":" ++ value.render) rest

def writeMorePairs (out : String) : List (Expr × Expr) → String
  | [] => out
  | (key, value) :: rest => writeMorePairs (out ++ ", " ++ key.render ++ ":" ++ value.render) rest

def Stmt.render : Stmt → String
  | .binding target value _ => "let " ++ target.name ++ " = " ++ value.render ++ ";"
  | .returning value _ => "return " ++ value.render ++ ";"
  | .expression value _ => value.render

def Block.render : Block → String
  | ⟨statements, _⟩ => writeStmts "" statements

def writeStmts (out : String) : List Stmt → String
  | [] => out
  | s :: rest => writeStmts (out ++ s.render) rest

end

def Node.render : Node → String
  | .program p => writeStmts "" p
  | .statement s => s.render
  | .block b => b.render
  | .expression e => e.render

/- What the writers add, as the texts of the items joined. -/

theorem writeMoreItemsJoined (out text : String) (items : List Expr) :
    writeMoreItems (out ++ text) items = out ++ ", ".intercalate (text :: items.map Expr.render) := by
  induction items generalizing text with
  | nil => simp [writeMoreItems]
  | cons e rest ih =>
      have step : writeMoreItems (out ++ text) (e :: rest) =
          writeMoreItems (out ++ (text ++ ", " ++ e.render)) rest := by
        simp [writeMoreItems, String.append_assoc]
      rw [step, ih]
      simp [String.append_assoc]

theorem writeItemsJoined (out : String) (items : List Expr) :
    writeItems out items = out ++ ", ".intercalate (items.map Expr.render) := by
  cases items with
  | nil => simp [writeItems]
  | cons e rest => rw [writeItems, writeMoreItemsJoined, List.map_cons]

def renderPair (pair : Expr × Expr) : String := pair.1.render ++ ":" ++ pair.2.render

theorem writeMorePairsJoined (out text : String) (pairs : List (Expr × Expr)) :
    writeMorePairs (out ++ text) pairs = out ++ ", ".intercalate (text :: pairs.map renderPair) := by
  induction pairs generalizing text with
  | nil => simp [writeMorePairs]
  | cons pair rest ih =>
      have step : writeMorePairs (out ++ text) (pair :: rest) =
          writeMorePairs (out ++ (text ++ ", " ++ renderPair pair)) rest := by
        simp [writeMorePairs, renderPair, String.append_assoc]
      rw [step, ih]
      simp [String.append_assoc]

theorem writePairsJoined (out : String) (pairs : List (Expr × Expr)) :
    writePairs out pairs = out ++ ", ".intercalate (pairs.map renderPair) := by
  cases pairs with
  | nil => simp [writePairs]
  | cons pair rest =>
      have step : writePairs out (pair :: rest) = writeMorePairs (out ++ renderPair pair) rest := by
        simp [writePairs, renderPair, String.append_assoc]
      rw [step, writeMorePairsJoined, List.map_cons]

theorem writeStmtsJoined (out : String) (statements : List Stmt) :
    writeStmts out statements = out ++ String.join (statements.map Stmt.render) := by
  induction statements generalizing out with
  | nil => simp [writeStmts]
  | cons s rest ih =>
      rw [writeStmts, ih]
      simp [String.append_assoc]

end ClosureCode

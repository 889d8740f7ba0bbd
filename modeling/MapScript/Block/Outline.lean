import MapScript.Block.Node
import MapScript.Text.Quoted

/-!
# Outlines

The blocks of a script for people to read, one line for each, the inner ones
further to the right.
-/

namespace MapScript

/-- Arguments as they are written, with a comma between two. -/
def outlineArguments (args : List (List Token)) : Text :=
  Text.join ", ".toList (args.map Token.rawText)

/-- A line of an outline. -/
def outlineLine (depth : Nat) (content : Text) : Text :=
  Text.fill (2 * depth) ' ' ++ content ++ ['\n']

mutual

/-- A block and those in it. -/
def Node.outline (depth : Nat) : Node → Text
  | .run r =>
    outlineLine depth ("LiteralRun(".toList ++ Text.quoted (Token.rawText r.tokens) ++ [')'])
  | .marker m _ => outlineLine depth ("Marker #".toList ++ m.name)
  | .repeated args children _ _ =>
    outlineLine depth ("Repeat(".toList ++ outlineArguments args ++ [')']) ++
      outlineNodes (depth + 1) children
  | .header h => outlineLine depth ("Header(".toList ++ Text.quoted h.text ++ [')'])
  | .call c =>
    outlineLine depth ("MacroCall #".toList ++ c.name ++ '(' :: outlineArguments c.args ++ [')']) ++
      match c.body with
      | none => []
      | some body =>
        outlineLine (depth + 1) ("Body(".toList ++ Text.quoted (Token.rawText body) ++ [')'])

/-- Blocks and those in them. -/
def outlineNodes (depth : Nat) : List Node → Text
  | [] => []
  | n :: ns => n.outline depth ++ outlineNodes depth ns

end

/-- The outline of a script. -/
def Script.outline (s : Script Node) : Text := outlineLine 0 "Root".toList ++ outlineNodes 1 s.parts

end MapScript

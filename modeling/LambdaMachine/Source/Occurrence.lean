import LambdaMachine.Source.Token

namespace LambdaMachine.Source

/-- What has been passed on the way through the tokens: the binders in scope with the depth of
parentheses they stand at, innermost first, that depth, and whether a type is being passed. -/
structure Place where
  binders : List (String × Int) := []
  depth : Int := 0
  inType : Bool := false

/-- The first token from a place on that is a free occurrence of a name. The token before decides
whether an identifier is a parameter. -/
def freeOccurrenceFrom (name : String) (place : Place) (afterLambda : Bool) :
    List Token → Option Token
  | [] => none
  | t :: ts =>
      let continueAt (place : Place) := freeOccurrenceFrom name place t.isLambda ts
      if t.text = "(" then continueAt { place with depth := place.depth + 1 }
      else if t.text = ")" then
        -- the binders that stand right inside these parentheses go out of scope
        continueAt { place with
          binders := place.binders.dropWhile (·.2 == place.depth)
          depth := place.depth - 1 }
      else if t.text = ":" then continueAt { place with inType := true }
      else if t.text = "." then continueAt { place with inType := false }
      else if t.kind = .identifier && !place.inType then
        if afterLambda then
          continueAt { place with binders := (t.text, place.depth) :: place.binders }
        else if t.text = name && place.binders.all (·.1 != name) then some t
        else continueAt place
      else continueAt place

/-- The first token of a text that is a free occurrence of a name. -/
def freeOccurrence (text name : String) : Except Illegal (Option Token) := do
  return freeOccurrenceFrom name {} false (← tokenize text)

end LambdaMachine.Source

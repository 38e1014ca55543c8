/-! Names: a letter or an underscore, then letters, digits and underscores, all of them ASCII. -/
namespace Machine16

def isNameStart (c : Char) : Bool := c.isAlpha || c == '_'
def isNameChar (c : Char) : Bool := c.isAlphanum || c == '_'

def isName : List Char → Bool
  | [] => false
  | c :: cs => isNameStart c && cs.all isNameChar

end Machine16

/-! Elements of XML documents, and the references that stand for characters in their texts. -/

namespace ResourcePki

inductive XmlNode where
  /-- Texts of attributes have no references left in them. -/
  | element (name : String) (attributes : List (String × String)) (children : List XmlNode)
  /-- Text between other nodes, as it was written. -/
  | text (cs : List Char)
  | comment
deriving Inhabited, Repr

namespace Xml

def isSpace (c : Char) : Bool := c = ' ' || c = '\n' || c = '\r' || c = '\t'

/-- Whether a node says nothing: a comment, or blank text. -/
def isFiller : XmlNode → Bool
  | .element _ _ _ => false
  | .text cs => cs.all isSpace
  | .comment => true

/-- The characters that have references of their own. -/
def references : List (Char × List Char) :=
  [('&', "amp".toList), ('<', "lt".toList), ('>', "gt".toList), ('"', "quot".toList),
    ('\'', "apos".toList)]

/-- Writes references for the characters that have them. -/
def escape (s : String) : List Char :=
  s.toList.flatMap fun c =>
    match references.lookup c with
    | some name => '&' :: name ++ [';']
    | none => [c]

/-- An attribute of a written element, after a blank. -/
def attributeText (name value : String) : String := s!" {name}=\"{String.ofList (escape value)}\""

end Xml

end ResourcePki

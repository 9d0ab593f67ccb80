/-! Comments are blanked out before a stylesheet is read, so that what follows keeps its place. -/
namespace TieredStyle.Css

/-- Puts a space for each byte of a comment and keeps its line feeds; a comment that does not end
takes the rest of the text. The flag tells whether the text starts inside a comment. -/
def blankFrom : Bool → List Char → List Char
  | false, '/' :: '*' :: cs => ' ' :: ' ' :: blankFrom true cs
  | true, '*' :: '/' :: cs => ' ' :: ' ' :: blankFrom false cs
  | true, '\n' :: cs => '\n' :: blankFrom true cs
  | true, c :: cs => List.replicate c.utf8Size ' ' ++ blankFrom true cs
  | false, c :: cs => c :: blankFrom false cs
  | _, [] => []

def blankComments (cs : List Char) : List Char := blankFrom false cs

end TieredStyle.Css

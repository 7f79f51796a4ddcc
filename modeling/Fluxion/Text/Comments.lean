/-!
Comments run from `//` to the end of the line. They are blanked before parsing: a character of a
comment becomes as many blanks as it has bytes, so that no byte of the text moves.
-/

namespace Fluxion.Text

/-- Blanks comments in `chars`, of which the first is in a comment if `inside`. -/
def blankFrom (inside : Bool) : List Char → List Char
  | [] => []
  | '\n' :: rest => '\n' :: blankFrom false rest
  | '/' :: '/' :: rest => ' ' :: ' ' :: blankFrom true rest
  | c :: rest =>
    if inside then List.replicate c.utf8Size ' ' ++ blankFrom true rest
    else c :: blankFrom false rest

/-- The characters of a text with its comments blanked. -/
def blankComments (text : String) : List Char := blankFrom false text.toList

end Fluxion.Text

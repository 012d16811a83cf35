/-
How an editor treats the language: its files, its comments, and the characters that come in pairs.
-/
import EvlCheck.Analysis.About
import EvlCheck.Json

namespace EvlCheck

/-- An opening character and the one that closes it. -/
structure CharPair where
  opening : Char
  closing : Char
  deriving Repr, DecidableEq

def CharPair.toJson (p : CharPair) : Json :=
  .obj [("open", .str p.opening.toString), ("close", .str p.closing.toString)]

structure EditorConfiguration where
  id : String
  extensions : List String
  lineComment : String
  blockComment : String × String
  brackets : List CharPair
  autoClosing : List CharPair
  surrounding : List CharPair
  deriving Repr, DecidableEq

namespace EditorConfiguration

def bracketPairs : List CharPair := [⟨'\x7b', '\x7d'⟩, ⟨'(', ')'⟩]

def evl : EditorConfiguration where
  id := About.languageId
  extensions := ["." ++ Source.sourceExtension]
  lineComment := "//"
  blockComment := ("/*", "*/")
  brackets := bracketPairs
  autoClosing := bracketPairs ++ [⟨'"', '"'⟩]
  surrounding := bracketPairs ++ [⟨'"', '"'⟩]

def toJson (c : EditorConfiguration) : Json :=
  .obj
    [ ("id", .str c.id),
      ("extensions", .arr (c.extensions.map .str)),
      ("comments", .obj
        [ ("line_comment", .str c.lineComment),
          ("block_comment", .arr [.str c.blockComment.1, .str c.blockComment.2]) ]),
      ("brackets", .arr (c.brackets.map CharPair.toJson)),
      ("auto_closing_pairs", .arr (c.autoClosing.map CharPair.toJson)),
      ("surrounding_pairs", .arr (c.surrounding.map CharPair.toJson)) ]

end EditorConfiguration

end EvlCheck

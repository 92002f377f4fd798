import LoxLang.Token
/-! Messages about a source text that keep it from being run. -/
namespace LoxLang

/-- What a message points at. -/
inductive Place where
  | nowhere
  | sourceEnd
  | lexeme (s : String)
deriving DecidableEq

structure Diagnostic where
  line : Nat
  place : Place
  message : String
deriving DecidableEq

namespace Place

def text : Place → String
  | nowhere => ""
  | sourceEnd => " at end"
  | lexeme s => " at '" ++ s ++ "'"

end Place

namespace Diagnostic

/-- The line shown to the user. -/
def text (d : Diagnostic) : String :=
  "[line " ++ d.line.repr ++ "] Error" ++ d.place.text ++ ": " ++ d.message

def atToken (t : Token) (message : String) : Diagnostic := ⟨t.pos.line, .lexeme t.lexeme, message⟩

/-- A message about a token, or about the end of the source, which is at line `last`. -/
def atSite (last : Nat) (site : Option Token) (message : String) : Diagnostic :=
  match site with
  | some t => atToken t message
  | none => ⟨last, .sourceEnd, message⟩

end Diagnostic
end LoxLang

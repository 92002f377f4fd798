import LoxLang.Diagnostic
import LoxLang.Fault
/-! What a session has told its user. -/
namespace LoxLang

/-- All messages so far, and whether there was one about a source text or about a run since
the start. Only the first of the two marks can be taken back. -/
structure Reporter where
  hadError : Bool
  hadFault : Bool
  messages : Array String

namespace Reporter

def start : Reporter := ⟨false, false, #[]⟩

def report (r : Reporter) (d : Diagnostic) : Reporter :=
  { r with hadError := true, messages := r.messages.push d.text }

def reportAll (r : Reporter) (ds : List Diagnostic) : Reporter := ds.foldl report r

def fault (r : Reporter) (f : Fault) : Reporter :=
  { r with hadFault := true, messages := r.messages.push f.text }

/-- Forgets that sources were rejected. -/
def reset (r : Reporter) : Reporter := { r with hadError := false }

end Reporter
end LoxLang

import Stencil.Error
import Stencil.Log
import Stencil.Render.Handler

/-! # Environments

What templates are rendered with: the handlers by the tags of render kinds, the level of
the logger, and whether host markers stay in live trees.
-/

namespace Stencil

/-- Handlers by tag, in the order in which they were registered. -/
structure Registry where
  entries : List (String × Handler) := []
  deriving Inhabited

namespace Registry

/-- The handlers of the built-in kinds. -/
def standard : Registry where
  entries := [
    (RenderKind.function.tag, Handler.function),
    (RenderKind.escaped.tag, Handler.escaped),
    (RenderKind.literal.tag, Handler.literal),
    (RenderKind.numeral.tag, Handler.numeral),
    (RenderKind.fragment.tag, Handler.literal)]

def tags (r : Registry) : List String := r.entries.map (·.1)

/-- The handler for a tag. -/
def get? (r : Registry) (tag : String) : Option Handler := r.entries.lookup tag

/-- Adds a handler for a tag that has none. -/
def register (r : Registry) (tag : String) (handler : Handler) : Except TemplateError Registry :=
  match r.get? tag with
  | some _ => .error (.handlerExists tag)
  | none => .ok { entries := r.entries ++ [(tag, handler)] }

end Registry

structure Environment where
  handlers : Registry := .standard
  logLevel : Level := .warn
  keepMarkers : Bool := false
  deriving Inhabited

/-- The form in which messages show an environment. -/
def Environment.shown (e : Environment) : String :=
  "Environment \x7b registry: HandlerRegistry \x7b tags: [" ++
    String.intercalate ", " (e.handlers.tags.map Text.quoted) ++ "] \x7d, log_level: " ++
    e.logLevel.shown ++ ", keep_markers: " ++ (if e.keepMarkers then "true" else "false") ++ " \x7d"

end Stencil

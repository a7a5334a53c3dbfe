/-! # Marker attributes

The attributes by which compiled markup refers to its directives and blocks.
-/

namespace Stencil.Marker

/-- The attribute on every element that carries references. -/
def host : String := "data-poirot"

/-- The attribute that holds the identity of a block, on its container. -/
def block : String := "data-poirot-block"

end Stencil.Marker

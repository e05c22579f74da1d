import RouteAtlas.Path.Basic

/-!
# Source languages

The language of a source file follows from its extension.
-/

namespace RouteAtlas.Source

/-- The languages of sources. -/
inductive Language where
  | javascript
  | typescript
  /-- TypeScript with markup in it. -/
  | tsx
  deriving DecidableEq, Repr, Inhabited

namespace Language

def name : Language → String
  | .javascript => "javascript"
  | .typescript => "typescript"
  | .tsx => "tsx"

def ofExtension? (ext : String) : Option Language :=
  if ["js", "jsx", "mjs", "cjs"].contains ext then some .javascript
  else if ["ts", "mts", "cts"].contains ext then some .typescript
  else if ext = "tsx" then some .tsx
  else none

/-- The language of a file; logs and documents are no sources. -/
def ofPath? (path : Path) : Option Language := do
  let name ← path.fileName?
  if Text.endsWith ".log" name || Text.endsWith ".md" name then none
  else (Path.extensionOf? name).bind ofExtension?

/-- Type annotations are part of the language. -/
def isTyped : Language → Bool
  | .javascript => false
  | .typescript | .tsx => true

/-- Markup elements are part of the language. -/
def hasMarkup : Language → Bool
  | .typescript => false
  | .javascript | .tsx => true

end Language

end RouteAtlas.Source

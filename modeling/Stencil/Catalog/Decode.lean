import Stencil.Catalog.Basic
import Stencil.Toml.Document
import Stencil.Toml.Record

/-!
# Reading a message catalog

A catalog is a TOML document with a name under `metadata` and texts under `messages`.
Everything may be missing, and keys that mean nothing are passed over.
-/

namespace Stencil

namespace Catalog

def decodeMetadata (value : Toml.Value) : Option (Option String) := do
  match ← Toml.fields? false [⟨"name", false⟩] value with
  | [name] => Toml.optional Toml.Value.text? name
  | _ => none

def decodeMessages (value : Toml.Value) : Option (Option String × Option String) := do
  match ← Toml.fields? false [⟨"bad_pattern", false⟩, ⟨"not_found_suffix", false⟩] value with
  | [badPattern, suffix] =>
      return (← Toml.optional Toml.Value.text? badPattern,
        ← Toml.optional Toml.Value.text? suffix)
  | _ => none

/-- The catalog of a document; texts that are missing are the standard ones. -/
def parse (text : String) : Option Catalog := do
  let root ← Toml.parse text
  let name ← Toml.optional decodeMetadata (root.get? "metadata")
  let messages ← Toml.optional decodeMessages (root.get? "messages")
  let (badPattern, suffix) := messages.getD (none, none)
  return ⟨name.join, badPattern.getD standard.badPattern,
    suffix.getD standard.notFoundSuffix⟩

end Catalog

end Stencil

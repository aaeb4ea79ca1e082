import Stencil.Scene.Basic
import Stencil.Toml.Document
import Stencil.Toml.Record

/-!
# Reading a scene

A scene is a TOML document. Only the environment must be there, and no key may be there
that means nothing.
-/

namespace Stencil

namespace Scene

/-- Reads the values to set; there may be none. -/
def decodeSettings (field : Option Toml.Value) : Option Settings :=
  (Toml.optional Toml.Value.textMap? field).map (·.getD [])

def decodeEnvironment (value : Toml.Value) : Option EnvironmentSpec := do
  match ← Toml.fields? true [⟨"class", false⟩, ⟨"name", false⟩, ⟨"attributes", true⟩] value with
  | [className, name, settings] =>
      return ⟨← Toml.required Toml.Value.text? className,
        ← Toml.optional Toml.Value.text? name, ← decodeSettings settings⟩
  | _ => none

def decodeArray (value : Toml.Value) : Option ArrayDef := do
  match ← Toml.fields? true [⟨"name", false⟩, ⟨"elements", false⟩] value with
  | [name, elements] =>
      return ⟨← Toml.required Toml.Value.text? name,
        ← Toml.required Toml.Value.natural? elements⟩
  | _ => none

def decodeEntity (value : Toml.Value) : Option EntitySpec := do
  match ← Toml.fields? true
      [⟨"class", false⟩, ⟨"name", false⟩, ⟨"array", false⟩, ⟨"attributes", true⟩] value with
  | [className, name, array, settings] =>
      return ⟨← Toml.required Toml.Value.text? className,
        ← Toml.optional Toml.Value.text? name, ← Toml.optional Toml.Value.text? array,
        ← decodeSettings settings⟩
  | _ => none

def decodeRelation (value : Toml.Value) : Option RelationSpec := do
  match ← Toml.fields? true
      [⟨"class", false⟩, ⟨"name", false⟩, ⟨"from", false⟩, ⟨"to", false⟩, ⟨"array", false⟩,
        ⟨"attributes", true⟩] value with
  | [className, name, source, target, array, settings] =>
      return ⟨← Toml.required Toml.Value.text? className,
        ← Toml.optional Toml.Value.text? name, ← Toml.required Toml.Value.text? source,
        ← Toml.required Toml.Value.text? target, ← Toml.optional Toml.Value.text? array,
        ← decodeSettings settings⟩
  | _ => none

/-- Reads a list; it may be missing. -/
def decodeList {α : Type} (read : Toml.Value → Option α) (field : Option Toml.Value) :
    Option (List α) := do
  match field with
  | none => return []
  | some value => (← value.items?).mapM read

def parse (text : String) : Option Scene := do
  let root ← Toml.parse text
  match ← Toml.fields? true
      [⟨"environment", false⟩, ⟨"arrays", true⟩, ⟨"entities", true⟩, ⟨"relations", true⟩]
      (.table .header root) with
  | [environment, arrays, entities, relations] =>
      return ⟨← Toml.required decodeEnvironment environment, ← decodeList decodeArray arrays,
        ← decodeList decodeEntity entities, ← decodeList decodeRelation relations⟩
  | _ => none

end Scene

end Stencil

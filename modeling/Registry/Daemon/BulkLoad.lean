import Registry.Daemon.Api

/-! # Loading a dump

The path around the write API for whole dumps.
-/

namespace Registry

open Effect

structure DumpLine where
  key : String
  value : Json

/-- How the JSON library reads the lines of a dump. -/
abbrev DumpReader := String → Except String DumpLine

/-- The text to store for a value of a dump line. -/
def Libraries.canonicalValueStr (lib : Libraries) : Json → Option String
  | .object fields => some (lib.printJson (.object fields))
  | .string raw =>
      match lib.parseJson raw with
      | .error _ => none
      | .ok parsed => if parsed.isObject then some raw else none
  | _ => none

/-- Both write paths admit the same values, as the same texts. -/
theorem Libraries.canonicalValueStr_eq_some_iff (lib : Libraries) (value : Json) (text : String) :
    lib.canonicalValueStr value = some text ↔ lib.canonicalValue value = .ok text := by
  cases value with
  | object fields => simp [canonicalValueStr, canonicalValue]
  | string raw =>
      simp only [canonicalValueStr, canonicalValue]
      cases lib.parseJson raw with
      | error message => simp
      | ok parsed => cases hobject : parsed.isObject <;> simp [hobject]
  | null => simp [canonicalValueStr, canonicalValue]
  | bool value => simp [canonicalValueStr, canonicalValue]
  | integer value => simp [canonicalValueStr, canonicalValue]
  | float text => simp [canonicalValueStr, canonicalValue]
  | array items => simp [canonicalValueStr, canonicalValue]

end Registry

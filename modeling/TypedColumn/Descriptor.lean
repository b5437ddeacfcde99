namespace TypedColumn

structure Descriptor : Type where
  name : String
  parameters : List String
  /-- From the opening parenthesis to the closing one; empty for a bare name. -/
  written : String
  deriving DecidableEq

namespace Descriptor

def ofParameters (name : String) (parameters : List String) : Descriptor where
  name := name
  parameters := parameters
  written := if parameters.isEmpty then "" else "(" ++ ", ".intercalate parameters ++ ")"

def text (d : Descriptor) : String := d.name ++ d.written

/-- The size of the longest parameter, in bytes. -/
def reach (d : Descriptor) : Nat := d.parameters.foldr (fun v n => max v.utf8ByteSize n) 0

end Descriptor

end TypedColumn

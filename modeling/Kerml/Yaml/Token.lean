/-! # The tokens that YAML text consists of -/
namespace Kerml.Yaml

inductive Token
  | documentStart
  | documentEnd
  /-- A block mapping starts. -/
  | blockStart
  | blockEnd
  /-- A mapping between braces starts. -/
  | flowStart
  | flowEnd
  | comma
  /-- The key of an entry follows. -/
  | key
  /-- The value of an entry follows. -/
  | value
  | scalar (text : List Char) (isPlain : Bool)
deriving DecidableEq, Repr

end Kerml.Yaml

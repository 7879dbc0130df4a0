import MemoryCompiler.Config
import MemoryCompiler.Text.Sha256

/-!
# Names of a configuration

A configuration has a label for people, a fingerprint for files and a base name for the modules
generated from it.
-/

namespace MemoryCompiler.Config

/-- The short names of the features that are on. -/
def featureTags (c : Config) : List String :=
  (if c.powerGating then ["PG"] else []) ++ (if c.clockGating then ["CG"] else [])
    ++ (if c.retentionMode then ["RET"] else []) ++ (if c.eccEnable then ["ECC"] else [])

/-- The label: geometry, banks, process node, voltage and features. -/
def label (c : Config) : String :=
  let banks := Decimal.natText c.banks ++ (if c.banks = 1 then " bank" else " banks")
  let tags := if c.featureTags = [] then "none" else ", ".intercalate c.featureTags
  Decimal.natText c.depth ++ "x" ++ Decimal.natText c.width ++ ", " ++ banks ++ ", "
    ++ Decimal.natText c.processNode ++ "nm, " ++ Decimal.text c.voltage ++ "V [" ++ tags ++ "]"

/-- The canonical text of nine fields: JSON pairs of name and value, in field order. -/
def canonicalText (value : ConfigField → Document) : String :=
  (Document.list (ConfigField.all.map fun f => .list [.text f.name, value f])).compact

/-- The first 12 hexadecimal digits of the digest of a canonical text. -/
def shortDigest (canonical : String) : String :=
  String.ofList ((Text.hexDigest canonical).toList.take 12)

def fingerprint (c : Config) : String := shortDigest (canonicalText c.get)

/-- The base name of the generated modules; a feature adds two letters. -/
def baseName (c : Config) : String :=
  let tags := (if c.powerGating then "pg" else "") ++ (if c.clockGating then "cg" else "")
    ++ (if c.retentionMode then "rt" else "") ++ (if c.eccEnable then "ec" else "")
  let base := "sram_" ++ Decimal.natText c.depth ++ "x" ++ Decimal.natText c.width ++ "_b"
    ++ Decimal.natText c.banks
  if tags = "" then base else base ++ "_" ++ tags

end MemoryCompiler.Config

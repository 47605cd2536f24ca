import ResourceShards.Config.Yaml.Node.Reader

/-!
# ResourceShards.Config.Yaml

**Configuration in YAML.** A document is read in three steps: characters with their places become
tokens, tokens become a node, and the node says what the value is.

* `Yaml.read`: the value of a document
-/

namespace ResourceShards.Config.Yaml

/-- The value of a document; a document without one is an empty word. -/
def read (text : String) : Option Value := do
  let tokens ← Token.ofText? text
  return (← Node.ofTokens? tokens).toValue

end ResourceShards.Config.Yaml

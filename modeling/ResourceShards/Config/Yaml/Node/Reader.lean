import ResourceShards.Config.Yaml.Node
import ResourceShards.Config.Yaml.Token

/-!
# ResourceShards.Config.Yaml.Node.Reader

**From tokens to nodes.** Every kind of list and table has tokens that can follow its parts; where
one of them stands instead of a part, that part is left out and there is an empty word. All readers
answer with what they read and with the tokens after it; `none` refuses the document.

* `Node.read`: one node
* `Node.ofTokens?`: the node of a document
-/

namespace ResourceShards.Config.Yaml.Node

/-! ### Around nodes -/

/-- What may stand in front of a node. -/
structure Properties where
  /-- The number of its anchor. -/
  anchor? : Option Nat := none
  /-- Its tag. -/
  tag? : Option Tag := none

/-- What stands in front of a node, and what follows it. -/
def properties : List Token → Properties × List Token
  | .anchor n :: .tag t :: rest => (⟨some n, some t⟩, rest)
  | .tag t :: .anchor n :: rest => (⟨some n, some t⟩, rest)
  | .anchor n :: rest => (⟨some n, none⟩, rest)
  | .tag t :: rest => (⟨none, some t⟩, rest)
  | rest => ({}, rest)

/-- A node of which nothing is written but what stands in front of it, if anything does. -/
def empty? (anchor? : Option Nat) (tag? : Option String) : Option Node :=
  if anchor?.isSome || tag?.isSome then some (.scalar anchor? ⟨"", .plain, tag?⟩) else none

/-- Whether a token can follow an item of a block. -/
def endsItem : Token → Bool
  | .item | .blockEnd => true
  | _ => false

/-- Whether a token can follow an item of a list in the column of the table around it. -/
def endsLevelItem : Token → Bool
  | .item | .key | .value | .blockEnd => true
  | _ => false

/-- Whether a token can follow a key or a value of a block. -/
def endsEntry : Token → Bool
  | .key | .value | .blockEnd => true
  | _ => false

/-- Whether a token can follow a value in brackets. -/
def endsFlowItem : Token → Bool
  | .comma | .flowListEnd => true
  | _ => false

/-- Whether a token can follow a key in brackets. -/
def endsPairKey : Token → Bool
  | .value | .comma | .flowListEnd => true
  | _ => false

/-- Whether a token can follow a value in braces. -/
def endsFlowValue : Token → Bool
  | .comma | .flowTableEnd => true
  | _ => false

/-- Whether a token can follow a key in braces. -/
def endsFlowKey : Token → Bool
  | .value | .comma | .flowTableEnd => true
  | _ => false

/-- Whether a token can follow a document. -/
def endsDocument : Token → Bool
  | .directive _ | .documentStart | .documentEnd => true
  | _ => false

/-- Drops the comma that stands in front of all items but the first one. -/
def dropComma? (isFirst : Bool) (tokens : List Token) : Option (List Token) :=
  if isFirst then some tokens
  else
    match tokens with
    | .comma :: rest => some rest
    | _ => none

/-! ### Nodes -/

mutual

/-- Reads a node. Blocks can begin where `inBlock` says so, and a list in the column of the table
around it where `inTable` does. -/
def read (handles : List (String × String)) (inBlock inTable : Bool) : (fuel : Nat) →
    List Token → Option (Node × List Token)
  | 0, _ => none
  | _, .reference n :: rest => some (.reference n, rest)
  | fuel + 1, tokens => do
    let (⟨anchor?, tag?⟩, rest) := properties tokens
    let tag? ← match tag? with
      | some t => (t.resolve? handles).map some
      | none => some none
    match rest with
    | .scalar style content :: rest =>
      return (.scalar anchor? ⟨content, style, tag?.filter (· != "!")⟩, rest)
    | .flowList :: rest =>
      let (items, rest) ← readFlowItems handles true fuel rest
      return (.list anchor? items, rest)
    | .flowTable :: rest =>
      let (entries, rest) ← readFlowEntries handles true fuel rest
      return (.table anchor? entries, rest)
    | .blockList :: after =>
      if inBlock then
        let (items, rest) ← readItems handles fuel after
        return (.list anchor? items, rest)
      else return (← empty? anchor? tag?, rest)
    | .blockTable :: after =>
      if inBlock then
        let (entries, rest) ← readEntries handles fuel after
        return (.table anchor? entries, rest)
      else return (← empty? anchor? tag?, rest)
    | .item :: _ =>
      if inTable then
        let (items, rest) ← readLevelItems handles fuel rest
        return (.list anchor? items, rest)
      else return (← empty? anchor? tag?, rest)
    | rest => return (← empty? anchor? tag?, rest)

/-- Reads a node, which is left out if a token stands here that can follow it. -/
def readUnless (handles : List (String × String)) (ends : Token → Bool) (inBlock inTable : Bool) :
    (fuel : Nat) → List Token → Option (Node × List Token)
  | 0, _ => none
  | fuel + 1, tokens =>
    if tokens.head?.any ends then some (void, tokens)
    else read handles inBlock inTable fuel tokens

/-- Reads the items of a list by indentation. -/
def readItems (handles : List (String × String)) : (fuel : Nat) → List Token →
    Option (List Node × List Token)
  | 0, _ => none
  | fuel + 1, .item :: rest => do
    let (item, rest) ← readUnless handles endsItem true false fuel rest
    let (items, rest) ← readItems handles fuel rest
    return (item :: items, rest)
  | _, .blockEnd :: rest => some ([], rest)
  | _, _ => none

/-- Reads the items of a list in the column of the table around it. -/
def readLevelItems (handles : List (String × String)) : (fuel : Nat) → List Token →
    Option (List Node × List Token)
  | 0, _ => none
  | fuel + 1, .item :: rest => do
    let (item, rest) ← readUnless handles endsLevelItem true false fuel rest
    let (items, rest) ← readLevelItems handles fuel rest
    return (item :: items, rest)
  | _, rest => some ([], rest)

/-- Reads the entries of a table by indentation. -/
def readEntries (handles : List (String × String)) : (fuel : Nat) → List Token →
    Option (List (Node × Node) × List Token)
  | 0, _ => none
  | fuel + 1, .key :: rest => do
    let (key, rest) ← readUnless handles endsEntry true true fuel rest
    let (value, rest) ← match rest with
      | .value :: rest => readUnless handles endsEntry true true fuel rest
      | rest => some (void, rest)
    let (entries, rest) ← readEntries handles fuel rest
    return ((key, value) :: entries, rest)
  | _, .blockEnd :: rest => some ([], rest)
  | _, _ => none

/-- Reads the items of a list in brackets. An item with a key is a table of one entry; where the key
is left out, so is the token behind it. -/
def readFlowItems (handles : List (String × String)) (isFirst : Bool) : (fuel : Nat) →
    List Token → Option (List Node × List Token)
  | 0, _ => none
  | _, .flowListEnd :: rest => some ([], rest)
  | fuel + 1, tokens => do
    match ← dropComma? isFirst tokens with
    | .flowListEnd :: rest => return ([], rest)
    | .key :: rest =>
      let (key, rest) ←
        if rest.head?.any endsPairKey then some (void, rest.drop 1)
        else read handles false false fuel rest
      let (value, rest) ← match rest with
        | .value :: rest => readUnless handles endsFlowItem false false fuel rest
        | rest => some (void, rest)
      let (items, rest) ← readFlowItems handles false fuel rest
      return (.table none [(key, value)] :: items, rest)
    | tokens =>
      let (item, rest) ← read handles false false fuel tokens
      let (items, rest) ← readFlowItems handles false fuel rest
      return (item :: items, rest)

/-- Reads the entries of a table in braces. -/
def readFlowEntries (handles : List (String × String)) (isFirst : Bool) : (fuel : Nat) →
    List Token → Option (List (Node × Node) × List Token)
  | 0, _ => none
  | _, .flowTableEnd :: rest => some ([], rest)
  | fuel + 1, tokens => do
    match ← dropComma? isFirst tokens with
    | .flowTableEnd :: rest => return ([], rest)
    | .key :: rest =>
      let (key, rest) ← readUnless handles endsFlowKey false false fuel rest
      let (value, rest) ← match rest with
        | .value :: rest => readUnless handles endsFlowValue false false fuel rest
        | rest => some (void, rest)
      let (entries, rest) ← readFlowEntries handles false fuel rest
      return ((key, value) :: entries, rest)
    | tokens =>
      let (key, rest) ← read handles false false fuel tokens
      let (entries, rest) ← readFlowEntries handles false fuel rest
      return ((key, void) :: entries, rest)

end

/-! ### Documents -/

/-- The directives in front of a document, and what follows them. -/
def directives : List Token → List Directive × List Token
  | .directive d :: rest =>
    let (more, rest) := directives rest
    (d :: more, rest)
  | rest => ([], rest)

/-- What the handles stand for that directives explain. -/
def handlesOf (directives : List Directive) : List (String × String) :=
  directives.filterMap fun d =>
    match d with
    | .handle handle meaning => some (handle, meaning)
    | .version => none

/-- Whether directives tell the version once at most, and every handle once at most. -/
def areConsistent (directives : List Directive) : Bool :=
  directives.count .version ≤ 1 && decide ((handlesOf directives).map Prod.fst).Nodup

/-- Reads the node of a document, which needs a marker if directives are in front of it. -/
def readDocument (fuel : Nat) (tokens : List Token) : Option (Node × List Token) :=
  let (directives, rest) := directives tokens
  let handles := handlesOf directives
  if !areConsistent directives then none
  else
    match rest with
    | .documentStart :: rest =>
      if rest.head?.all endsDocument then some (void, rest) else read handles true false fuel rest
    | rest =>
      if !directives.isEmpty then none
      else if rest.isEmpty then some (void, [])
      else read handles true false fuel rest

/-- Whether nothing but end markers is left. -/
def areOver (tokens : List Token) : Bool :=
  tokens.all fun t =>
    match t with
    | .documentEnd => true
    | _ => false

/-- The node of a document, the only one that tokens hold. -/
def ofTokens? (tokens : List Token) : Option Node := do
  let (node, rest) ← readDocument (4 * (tokens.length + 2)) tokens
  if areOver rest then return node else none

end ResourceShards.Config.Yaml.Node

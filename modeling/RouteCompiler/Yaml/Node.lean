import RouteCompiler.Yaml.Token

/-!
# Nodes of YAML

The tokens of a text spell a document, which is a tree of nodes.  A text holds
one document at most, which may be empty.

Between brackets, a key with a value is an item by itself: a mapping with that
member alone.
-/

namespace RouteCompiler.Yaml

/-- What a document consists of. -/
inductive Node where
  | scalar (style : Style) (tag : Option Tag) (text : String)
  | sequence (items : List Node)
  | mapping (members : List (Node × Node))
  /-- A node that references may mean. -/
  | anchored (number : Nat) (node : Node)
  /-- What a numbered node stands for. -/
  | reference (number : Nat)

namespace Node

/-- What stands for a value that is left out. -/
def nothing : Node :=
  .scalar .plain none ""

/-! ## Properties -/

/-- What may stand in front of a node, in either order. -/
structure Properties where
  anchor : Option Nat
  tag : Option WrittenTag

/-- Read what stands in front of a node. -/
def readProperties : List Token → Properties × List Token
  | .anchor n :: .tag t :: rest => (⟨some n, some t⟩, rest)
  | .tag t :: .anchor n :: rest => (⟨some n, some t⟩, rest)
  | .anchor n :: rest => (⟨some n, none⟩, rest)
  | .tag t :: rest => (⟨none, some t⟩, rest)
  | rest => (⟨none, none⟩, rest)

/-- The node with its anchor, if it has one. -/
def Properties.mark (p : Properties) (node : Node) : Node :=
  match p.anchor with
  | some n => .anchored n node
  | none => node

/-- The tag that is meant, if there is one and its handle is known. -/
def Properties.tag? (p : Properties) (handles : Handles) : Option (Option Tag) :=
  match p.tag with
  | none => some none
  | some t => (t.expand? handles).map some

/-! ## Structure -/

/-- Where a node stands.  Collections by indentation have no place between
brackets, and items need not be indented further than the key in front of
them. -/
inductive Position where
  | flow
  | block
  | member
  deriving DecidableEq, Repr

/-- In front of these tokens, an item of a collection by indentation is
empty. -/
def endsEntry : Token → Bool
  | .entry | .blockEnd => true
  | _ => false

/-- In front of these tokens, a key or a value by indentation is empty. -/
def endsMember : Token → Bool
  | .key | .value | .blockEnd => true
  | _ => false

/-- In front of these tokens, a key between brackets is empty. -/
def endsFlowKey : Token → Bool
  | .value | .separator | .listEnd | .recordEnd => true
  | _ => false

/-- In front of these tokens, a value between brackets is empty. -/
def endsFlowValue : Token → Bool
  | .separator | .listEnd | .recordEnd => true
  | _ => false

mutual

/-- Read a node; the first argument bounds the number of nested calls, here and
below. -/
def readNode (handles : Handles) : Nat → Position → List Token → Option (Node × List Token)
  | 0, _, _ => none
  | _ + 1, _, .reference n :: rest => some (.reference n, rest)
  | steps + 1, position, tokens =>
      let (properties, tokens) := readProperties tokens
      match properties.tag? handles with
      | none => none
      | some tag =>
          match tokens with
          | .scalar style text :: rest =>
              let tag := tag.filter (· != Tag.nonSpecific)
              some (properties.mark (.scalar style tag text), rest)
          | .listStart :: rest =>
              (readFlowItems handles steps true rest).map fun (items, rest) =>
                (properties.mark (.sequence items), rest)
          | .recordStart :: rest =>
              (readFlowMembers handles steps true rest).map fun (members, rest) =>
                (properties.mark (.mapping members), rest)
          | .sequenceStart :: rest =>
              if position = .flow then emptyNode properties tag tokens
              else
                (readItems handles steps rest).map fun (items, rest) =>
                  (properties.mark (.sequence items), rest)
          | .mappingStart :: rest =>
              if position = .flow then emptyNode properties tag tokens
              else
                (readMembers handles steps rest).map fun (members, rest) =>
                  (properties.mark (.mapping members), rest)
          | .entry :: _ =>
              if position = .member then
                (readEntries handles steps tokens).map fun (items, rest) =>
                  (properties.mark (.sequence items), rest)
              else emptyNode properties tag tokens
          | _ => emptyNode properties tag tokens
where
  /-- A node of which nothing but properties is there. -/
  emptyNode (properties : Properties) (tag : Option Tag) (tokens : List Token) :
      Option (Node × List Token) :=
    if properties.anchor.isNone && tag.isNone then none
    else some (properties.mark (.scalar .plain tag ""), tokens)

/-- Read a node, or nothing in front of some tokens. -/
def readOptional (handles : Handles) :
    Nat → (Token → Bool) → Position → List Token → Option (Node × List Token)
  | 0, _, _, _ => none
  | steps + 1, isEnd, position, tokens =>
      if tokens.head?.any isEnd then some (nothing, tokens)
      else readNode handles steps position tokens

/-- Read items by indentation, up to their end. -/
def readItems (handles : Handles) : Nat → List Token → Option (List Node × List Token)
  | 0, _ => none
  | steps + 1, .entry :: rest =>
      match readOptional handles steps endsEntry .block rest with
      | none => none
      | some (item, rest) =>
          (readItems handles steps rest).map fun (items, rest) => (item :: items, rest)
  | _ + 1, .blockEnd :: rest => some ([], rest)
  | _ + 1, _ => none

/-- Read items that are not indented further than the key in front of them. -/
def readEntries (handles : Handles) : Nat → List Token → Option (List Node × List Token)
  | 0, _ => none
  | steps + 1, .entry :: rest =>
      let isEnd (t : Token) : Bool := endsEntry t || endsMember t
      match readOptional handles steps isEnd .block rest with
      | none => none
      | some (item, rest) =>
          (readEntries handles steps rest).map fun (items, rest) => (item :: items, rest)
  | _ + 1, rest => some ([], rest)

/-- Read members by indentation, up to their end. -/
def readMembers (handles : Handles) :
    Nat → List Token → Option (List (Node × Node) × List Token)
  | 0, _ => none
  | steps + 1, .key :: rest =>
      match readOptional handles steps endsMember .member rest with
      | none => none
      | some (key, rest) =>
          match readValue handles steps endsMember .member rest with
          | none => none
          | some (value, rest) =>
              (readMembers handles steps rest).map fun (members, rest) =>
                ((key, value) :: members, rest)
  | _ + 1, .blockEnd :: rest => some ([], rest)
  | _ + 1, _ => none

/-- Read the value of a member, or nothing where no colon is. -/
def readValue (handles : Handles) :
    Nat → (Token → Bool) → Position → List Token → Option (Node × List Token)
  | 0, _, _, _ => none
  | steps + 1, isEnd, position, .value :: rest => readOptional handles steps isEnd position rest
  | _ + 1, _, _, rest => some (nothing, rest)

/-- Read items between brackets, up to the closing one.  A comma stands in front
of every item but the first. -/
def readFlowItems (handles : Handles) :
    Nat → Bool → List Token → Option (List Node × List Token)
  | 0, _, _ => none
  | _ + 1, _, .listEnd :: rest => some ([], rest)
  | steps + 1, true, tokens => readFlowItem handles steps tokens
  | _ + 1, false, .separator :: .listEnd :: rest => some ([], rest)
  | steps + 1, false, .separator :: rest => readFlowItem handles steps rest
  | _ + 1, false, _ => none

/-- Read an item between brackets, and those behind it. -/
def readFlowItem (handles : Handles) : Nat → List Token → Option (List Node × List Token)
  | 0, _ => none
  | steps + 1, .key :: rest =>
      match readPair handles steps rest with
      | none => none
      | some (pair, rest) =>
          (readFlowItems handles steps false rest).map fun (items, rest) =>
            (.mapping [pair] :: items, rest)
  | steps + 1, tokens =>
      match readNode handles steps .flow tokens with
      | none => none
      | some (item, rest) =>
          (readFlowItems handles steps false rest).map fun (items, rest) => (item :: items, rest)

/-- Read a key with its value, which are an item by themselves.  The token behind
an empty key is passed over. -/
def readPair (handles : Handles) : Nat → List Token → Option ((Node × Node) × List Token)
  | 0, _ => none
  | steps + 1, tokens =>
      let isEnd (t : Token) : Bool := endsFlowKey t && t != .recordEnd
      let key? :=
        if tokens.head?.any isEnd then some (nothing, tokens.drop 1)
        else readNode handles steps .flow tokens
      match key? with
      | none => none
      | some (key, rest) =>
          let isEnd (t : Token) : Bool := endsFlowValue t && t != .recordEnd
          (readValue handles steps isEnd .flow rest).map fun (value, rest) => ((key, value), rest)

/-- Read members between brackets, up to the closing one.  A comma stands in front
of every member but the first. -/
def readFlowMembers (handles : Handles) :
    Nat → Bool → List Token → Option (List (Node × Node) × List Token)
  | 0, _, _ => none
  | _ + 1, _, .recordEnd :: rest => some ([], rest)
  | steps + 1, true, tokens => readFlowMember handles steps tokens
  | _ + 1, false, .separator :: .recordEnd :: rest => some ([], rest)
  | steps + 1, false, .separator :: rest => readFlowMember handles steps rest
  | _ + 1, false, _ => none

/-- Read a member between brackets, and those behind it.  A node that is no key
has nothing for its value. -/
def readFlowMember (handles : Handles) :
    Nat → List Token → Option (List (Node × Node) × List Token)
  | 0, _ => none
  | steps + 1, .key :: rest =>
      let isEnd (t : Token) : Bool := endsFlowKey t && t != .listEnd
      match readOptional handles steps isEnd .flow rest with
      | none => none
      | some (key, rest) =>
          let isEnd (t : Token) : Bool := endsFlowValue t && t != .listEnd
          match readValue handles steps isEnd .flow rest with
          | none => none
          | some (value, rest) =>
              (readFlowMembers handles steps false rest).map fun (members, rest) =>
                ((key, value) :: members, rest)
  | steps + 1, tokens =>
      match readNode handles steps .flow tokens with
      | none => none
      | some (key, rest) =>
          (readFlowMembers handles steps false rest).map fun (members, rest) =>
            ((key, nothing) :: members, rest)

end

/-! ## Documents -/

/-- The directives in front of a document, and what follows. -/
def splitDirectives : List Token → List Directive × List Token
  | .directive d :: rest => ((splitDirectives rest).map (d :: ·) id)
  | rest => ([], rest)

/-- What handles stand for in a document behind some directives, of which no two
may speak of the same. -/
def handlesOf? (directives : List Directive) : Option Handles :=
  let subjects := directives.map fun
    | .version => ""
    | .handle name _ => name
  let told := directives.filterMap fun
    | .version => none
    | .handle name expansion => some (name, expansion)
  if subjects.Nodup then some (told ++ usualHandles) else none

/-- In front of these tokens, a document is empty. -/
def endsDocument : Token → Bool
  | .directive _ | .documentStart | .documentEnd => true
  | _ => false

/-- Read a document.  It begins with a mark, which may be left out where no
directives are. -/
def readDocument (steps : Nat) (tokens : List Token) : Option (Node × List Token) :=
  match splitDirectives tokens with
  | ([], []) => some (nothing, [])
  | (directives, .documentStart :: rest) => do
      let handles ← handlesOf? directives
      if rest.head?.all endsDocument then some (nothing, rest)
      else readNode handles steps .block rest
  | ([], rest) => readNode usualHandles steps .block rest
  | _ => none

/-- The node that tokens spell, if they spell one document at most. -/
def ofTokens? (tokens : List Token) : Option Node := do
  let (node, rest) ← readDocument (4 * tokens.length + 4) tokens
  if rest.all (· == .documentEnd) then some node else none

end Node

end RouteCompiler.Yaml

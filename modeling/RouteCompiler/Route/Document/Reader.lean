import RouteCompiler.Route.Token
import RouteCompiler.Route.Document.Traversal

/-!
# Reading a document

A document is built from the tokens of a text.  Exactly one element stands
outside all others.  Character data is trimmed and dropped if nothing is left;
pieces of it that are separated only by what the scanner passes over or by a
verbatim section become one text node.
-/

namespace RouteCompiler.Route

open RouteCompiler.Text

namespace Construct

/-- The text of a missing end mark. -/
def unclosedMessage : Construct → String
  | .tag => "tag not closed: `>` not found before end of input"
  | .verbatim => "CDATA not closed: `]]>` not found before end of input"
  | .comment => "comment not closed: `-->` not found before end of input"
  | .documentType => "DOCTYPE not closed: `>` not found before end of input"
  | .instruction =>
      "processing instruction or xml declaration not closed: `?>` not found before end of input"

end Construct

/-- The text of a fault of the scanner. -/
def TokenFault.message : TokenFault → String
  | .unclosed what => "syntax error: " ++ Construct.unclosedMessage what
  | .unknownMarkup => "syntax error: unknown or missed symbol in markup"
  | .unnamedDocumentType =>
      "ill-formed document: `<!DOCTYPE>` declaration does not contain a name of a document type"

/-- Why a text is no document.  Positions count bytes from the beginning of the
text. -/
inductive Malformed where
  /-- The text cannot be divided into tokens. -/
  | token (fault : TokenFault) (position : Nat)
  /-- A closing tag with no open element. -/
  | unmatchedClose (name : String) (position : Nat)
  /-- A closing tag of another name than the innermost open element. -/
  | mismatchedClose (expected found : String) (position : Nat)
  /-- The attributes of a tag cannot be read. -/
  | inAttribute (fault : Attribute.Fault)
  /-- Character data is not well written. -/
  | inText (fault : Entity.Fault)
  /-- Text that stands in no element. -/
  | textOutsideRoot
  /-- A second element that stands in no other. -/
  | secondRoot
  /-- The text ends inside an element. -/
  | unclosedElement
  /-- There is no element at all. -/
  | noRoot
  deriving DecidableEq, Repr

namespace Malformed

/-- The text of a fault of a document. -/
def message : Malformed → String
  | token fault position => s!"{fault.message} at byte {position}"
  | unmatchedClose name position =>
      s!"ill-formed document: close tag `</{name}>` does not match any open tag at byte {position}"
  | mismatchedClose expected found position =>
      s!"ill-formed document: expected `</{expected}>`, but `</{found}>` was found at byte {position}"
  | inAttribute fault => fault.message
  | inText fault => fault.message
  | textOutsideRoot => "text outside the root element"
  | secondRoot => "more than one root element"
  | unclosedElement => "unexpected end of input: unclosed element"
  | noRoot => "no root element"

end Malformed

/-- A document under construction. -/
structure Builder where
  document : Document
  /-- The open elements with their names, innermost first. -/
  openElements : List (NodeId × List Char)
  /-- Whether an element outside all others was met. -/
  hasRoot : Bool

namespace Builder

/-- Nothing read yet. -/
def start : Builder :=
  ⟨.empty, [], false⟩

/-- Add an element that stands in the innermost open element, or as the
root. -/
def addElement (b : Builder) (name : List Char) (attributes : List Attribute) :
    Except Malformed (Builder × NodeId) :=
  let made := b.document.push (.element (String.ofList name) attributes)
  match b.openElements with
  | (parent, _) :: _ => .ok (⟨made.1.link parent made.2, b.openElements, b.hasRoot⟩, made.2)
  | [] =>
      if b.hasRoot then .error .secondRoot
      else .ok (⟨⟨made.1.nodes, made.2⟩, [], true⟩, made.2)

/-- Append text to a text node. -/
def appendText (more : String) : Content → Content
  | .text value => .text (value ++ more)
  | content => content

/-- Add character data to the innermost open element. -/
def addText (b : Builder) (content : List Char) : Except Malformed Builder :=
  let trimmed := trimChars content
  if trimmed.isEmpty then .ok b
  else
    match b.openElements with
    | [] => .error .textOutsideRoot
    | (parent, _) :: _ =>
        let value := String.ofList trimmed
        match (b.document.children parent).getLast? with
        | some last =>
            if b.document.isElement last then
              let made := b.document.createText value
              .ok { b with document := made.1.link parent made.2 }
            else .ok { b with document := b.document.modifyContent last (appendText value) }
        | none =>
            let made := b.document.createText value
            .ok { b with document := made.1.link parent made.2 }

/-- Take in one token; `position` is where it ends. -/
def step (b : Builder) (position : Nat) : Token → Except Malformed Builder
  | .text written => do
      let content ← (Entity.unescape written).mapError .inText
      b.addText content
  | .verbatim content => b.addText content
  | .tag content isEmpty => do
      let attributes ← (Attribute.ofTagContent content).mapError .inAttribute
      let name := Attribute.tagName content
      let (b, id) ← b.addElement name attributes
      return if isEmpty then b else { b with openElements := (id, name) :: b.openElements }
  | .close name =>
      match b.openElements with
      | [] => .error (.unmatchedClose (String.ofList name) position)
      | (_, expected) :: outer =>
          if name = expected then .ok { b with openElements := outer }
          else
            .error (.mismatchedClose (String.ofList expected) (String.ofList name) position)
  | .broken fault => .error (.token fault position)

/-- Take in tokens, each with the text left unread behind it. -/
def run (total : Nat) : List (Token × List Char) → Builder → Except Malformed Builder
  | [], b => .ok b
  | (token, unread) :: tokens, b => do
      let b ← b.step (total - byteLength unread) token
      run total tokens b

/-- The document, once all elements are closed. -/
def finish (b : Builder) : Except Malformed Document :=
  if !b.openElements.isEmpty then .error .unclosedElement
  else if !b.hasRoot then .error .noRoot
  else .ok b.document

end Builder

namespace Document

/-- A byte order mark in front of a text is no part of it. -/
def dropByteOrderMark : List Char → List Char
  | '\uFEFF' :: cs => cs
  | cs => cs

/-- Read a document from characters. -/
def parseChars (cs : List Char) : Except Malformed Document :=
  Builder.run (byteLength cs) (Token.scan cs) .start >>= Builder.finish

/-- Read a document. -/
def parse (text : String) : Except Malformed Document :=
  parseChars (dropByteOrderMark text.toList)

end Document

end RouteCompiler.Route

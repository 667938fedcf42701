import Reckoner.Yaml.Kind
import Reckoner.Yaml.Scan

/-!
Nodes of a YAML document. A text holds at most one document. The nodes are numbered, and a node
gives its parts by their numbers. An alias is the number of the node that has its anchor, which may
be a node that the alias itself is a part of.
-/
namespace Reckoner.Yaml

inductive Node
  | scalar (kind : Kind) (text : List Char)
  | sequence (kind : Kind) (items : List Nat)
  | mapping (kind : Kind) (entries : List (Nat × Nat))

/-- The nodes of a document and the number of the outermost one. -/
structure Graph where
  nodes : Array Node
  root : Nat

namespace Node

def empty : Node := .scalar .null []

def kind : Node → Kind
  | scalar kind _ => kind
  | sequence kind _ => kind
  | mapping kind _ => kind

def withKind (kind : Kind) : Node → Node
  | scalar _ s => scalar kind s
  | sequence _ items => sequence kind items
  | mapping _ entries => mapping kind entries

/-- The refusal of a token, for which a place that cannot be read has its own reason. -/
def unexpected {α : Type} : List Token → Reading α
  | .broken b :: _ => Yaml.broken b
  | _ => refuse

/-- The tokens to come, and what the document has introduced so far. -/
structure Feed where
  tokens : List Token
  anchors : Assoc (List Char) Nat
  handles : Assoc (List Char) (List Char)
  nodes : Array Node

def Feed.drop (f : Feed) : Feed := { f with tokens := f.tokens.drop 1 }

/-- Which collections may stand at a place. -/
structure Place where
  block : Bool
  indentless : Bool

def Place.flow : Place := ⟨false, false⟩

def Place.entry : Place := ⟨true, false⟩

def Place.value : Place := ⟨true, true⟩

/-- The full tag of a tag token. -/
def fullTag (f : Feed) (handle : Option (List Char)) (suffix : List Char) :
    Reading (List Char) :=
  match handle with
  | none => .ok suffix
  | some h =>
    match Assoc.get? f.handles h with
    | some expansion => .ok (expansion ++ suffix)
    | none => refuse

/-- An anchor and a tag before a node, in any order. -/
structure Properties where
  anchor : Option (List Char)
  tag : Option (List Char)

def properties (f : Feed) : Reading (Properties × Feed) :=
  match f.tokens with
  | .anchor a :: .tag h s :: rest => do
    let tag ← fullTag f h s
    return (⟨some a, some tag⟩, { f with tokens := rest })
  | .anchor a :: rest => .ok (⟨some a, none⟩, { f with tokens := rest })
  | .tag h s :: .anchor a :: rest => do
    let tag ← fullTag f h s
    return (⟨some a, some tag⟩, { f with tokens := rest })
  | .tag _ _ :: .broken b :: _ => Yaml.broken b
  | .tag h s :: rest => do
    let tag ← fullTag f h s
    return (⟨none, some tag⟩, { f with tokens := rest })
  | _ => .ok (⟨none, none⟩, f)

/-- The tag that leaves the kind of a node open. -/
def openTag : List Char := ['!']

def kindOr (tag : Option (List Char)) (usual : Kind) : Kind :=
  match tag with
  | none => usual
  | some t => if t = openTag then usual else Kind.ofTag t

/-- The kind of a scalar: its tag, or what its text looks like where that counts. -/
def scalarKind (tag : Option (List Char)) (isPlain : Bool) (s : List Char) : Kind :=
  let looks := if isPlain || tag = some openTag then Kind.ofPlain s else .text
  kindOr tag looks

/-- Adds a node, whose number is returned, and gives it an anchor that no other node has. -/
def introduce (anchor : Option (List Char)) (n : Node) (f : Feed) : Reading (Nat × Feed) :=
  let number := f.nodes.size
  let f := { f with nodes := f.nodes.push n }
  match anchor with
  | none => .ok (number, f)
  | some a =>
    if Assoc.has f.anchors a then refuse
    else .ok (number, { f with anchors := Assoc.set f.anchors a number })

/-- Puts a complete node in the place of one that was introduced. -/
def complete (number : Nat) (n : Node) (f : Feed) : Nat × Feed :=
  (number, { f with nodes := f.nodes.setIfInBounds number n })

/-- Adds an empty node. -/
def vacant (f : Feed) : Nat × Feed := (f.nodes.size, { f with nodes := f.nodes.push empty })

def endsBlock (indentless : Bool) : List Token → Bool
  | .key :: _ => true
  | .value :: _ => true
  | .blockEnd :: _ => true
  | .blockEntry :: _ => indentless
  | _ => false

def endsSequenceEntry : List Token → Bool
  | .blockEntry :: _ => true
  | .blockEnd :: _ => true
  | _ => false

def endsFlowEntry (close : Token) : List Token → Bool
  | .flowEntry :: _ => true
  | t :: _ =>
    match close, t with
    | .flowSequenceEnd, .flowSequenceEnd => true
    | .flowMappingEnd, .flowMappingEnd => true
    | _, _ => false
  | [] => false

mutual

/-- The node at the next token. -/
def node (place : Place) : Nat → Feed → Reading (Nat × Feed)
  | 0, _ => refuse
  | fuel + 1, f =>
    match f.tokens with
    | .alias name :: _ =>
      match Assoc.get? f.anchors name with
      | some number => .ok (number, f.drop)
      | none => refuse
    | _ => do
      let (p, f) ← properties f
      content place p fuel f

/-- What follows the properties of a node. -/
def content (place : Place) (p : Properties) : Nat → Feed → Reading (Nat × Feed)
  | 0, _ => refuse
  | fuel + 1, f =>
    match f.tokens with
    | .scalar isPlain s :: _ => introduce p.anchor (.scalar (scalarKind p.tag isPlain s) s) f.drop
    | .flowSequenceStart :: _ => do
      let (n, f) ← introduce p.anchor (.sequence (kindOr p.tag .sequence) []) f.drop
      let (items, f) ← flowItems true fuel f
      return complete n (.sequence (kindOr p.tag .sequence) items) f
    | .flowMappingStart :: _ => do
      let (n, f) ← introduce p.anchor (.mapping (kindOr p.tag .mapping) []) f.drop
      let (entries, f) ← flowEntries true fuel f
      return complete n (.mapping (kindOr p.tag .mapping) entries) f
    | .blockSequenceStart :: _ =>
      if place.block then do
        let (n, f) ← introduce p.anchor (.sequence (kindOr p.tag .sequence) []) f.drop
        let (items, f) ← blockItems fuel f
        return complete n (.sequence (kindOr p.tag .sequence) items) f
      else absent p f
    | .blockMappingStart :: _ =>
      if place.block then do
        let (n, f) ← introduce p.anchor (.mapping (kindOr p.tag .mapping) []) f.drop
        let (entries, f) ← blockEntries fuel f
        return complete n (.mapping (kindOr p.tag .mapping) entries) f
      else absent p f
    | .blockEntry :: _ =>
      if place.indentless then do
        let (n, f) ← introduce p.anchor (.sequence (kindOr p.tag .sequence) []) f
        let (items, f) ← indentlessItems fuel f
        return complete n (.sequence (kindOr p.tag .sequence) items) f
      else absent p f
    | .broken b :: _ => Yaml.broken b
    | _ => absent p f

/-- A node of which only properties are given is an empty scalar. -/
def absent (p : Properties) (f : Feed) : Reading (Nat × Feed) :=
  if p.anchor.isSome || p.tag.isSome then
    introduce p.anchor (.scalar (scalarKind p.tag p.tag.isNone []) []) f
  else unexpected f.tokens

def blockItems : Nat → Feed → Reading (List Nat × Feed)
  | 0, _ => refuse
  | fuel + 1, f =>
    match f.tokens with
    | .blockEntry :: rest => do
      let (n, f) ←
        if endsSequenceEntry rest then pure (vacant f.drop) else node .entry fuel f.drop
      let (later, f) ← blockItems fuel f
      return (n :: later, f)
    | .blockEnd :: _ => .ok ([], f.drop)
    | tokens => unexpected tokens

/-- The entries of a sequence that is not indented beyond the key it belongs to. -/
def indentlessItems : Nat → Feed → Reading (List Nat × Feed)
  | 0, _ => refuse
  | fuel + 1, f =>
    match f.tokens with
    | .blockEntry :: rest => do
      let (n, f) ← if endsBlock true rest then pure (vacant f.drop) else node .entry fuel f.drop
      let (later, f) ← indentlessItems fuel f
      return (n :: later, f)
    | _ => .ok ([], f)

def blockEntries : Nat → Feed → Reading (List (Nat × Nat) × Feed)
  | 0, _ => refuse
  | fuel + 1, f =>
    match f.tokens with
    | .key :: rest => do
      let (k, f) ← if endsBlock false rest then pure (vacant f.drop) else node .value fuel f.drop
      let (v, f) ← match f.tokens with
        | .value :: rest =>
          if endsBlock false rest then pure (vacant f.drop) else node .value fuel f.drop
        | _ => pure (vacant f)
      let (later, f) ← blockEntries fuel f
      return ((k, v) :: later, f)
    | .blockEnd :: _ => .ok ([], f.drop)
    | tokens => unexpected tokens

/-- Skips the comma before a further entry of a flow collection. -/
def flowComma (first : Bool) (f : Feed) : Reading Feed :=
  if first then .ok f
  else match f.tokens with
    | .flowEntry :: _ => .ok f.drop
    | tokens => unexpected tokens

/-- A node of a flow collection, which is empty where the entry ends. -/
def flowPart (close : Token) : Nat → Feed → Reading (Nat × Feed)
  | 0, _ => refuse
  | fuel + 1, f =>
    if endsFlowEntry close f.tokens then .ok (vacant f) else node .flow fuel f

/-- The key after its token and the value after its token. -/
def flowPair (close : Token) : Nat → Feed → Reading ((Nat × Nat) × Feed)
  | 0, _ => refuse
  | fuel + 1, f => do
    let (k, f) ← match f.tokens with
      | .value :: _ => pure (vacant f)
      | _ => flowPart close fuel f
    let (v, f) ← match f.tokens with
      | .value :: _ => flowPart close fuel f.drop
      | _ => pure (vacant f)
    return ((k, v), f)

def flowItems (first : Bool) : Nat → Feed → Reading (List Nat × Feed)
  | 0, _ => refuse
  | fuel + 1, f =>
    match f.tokens with
    | .flowSequenceEnd :: _ => .ok ([], f.drop)
    | _ => do
      let f ← flowComma first f
      match f.tokens with
      | .flowSequenceEnd :: _ => return ([], f.drop)
      | .key :: _ =>
        let (n, f) ← introduce none (.mapping .mapping []) f.drop
        let (entry, f) ← flowPair .flowSequenceEnd fuel f
        let (_, f) := complete n (.mapping .mapping [entry]) f
        let (later, f) ← flowItems false fuel f
        return (n :: later, f)
      | _ =>
        let (n, f) ← node .flow fuel f
        let (later, f) ← flowItems false fuel f
        return (n :: later, f)

def flowEntries (first : Bool) : Nat → Feed → Reading (List (Nat × Nat) × Feed)
  | 0, _ => refuse
  | fuel + 1, f =>
    match f.tokens with
    | .flowMappingEnd :: _ => .ok ([], f.drop)
    | _ => do
      let f ← flowComma first f
      match f.tokens with
      | .flowMappingEnd :: _ => return ([], f.drop)
      | .key :: _ =>
        let (entry, f) ← flowPair .flowMappingEnd fuel f.drop
        let (later, f) ← flowEntries false fuel f
        return (entry :: later, f)
      | _ =>
        let (k, f) ← node .flow fuel f
        let (v, f) := vacant f
        let (later, f) ← flowEntries false fuel f
        return ((k, v) :: later, f)

end

def defaultHandles : Assoc (List Char) (List Char) :=
  [(['!'], ['!']), (['!', '!'], Kind.standardTag)]

/-- The directives before a document, of which each may be given once. -/
structure Declarations where
  hasVersion : Bool
  handles : Assoc (List Char) (List Char)

def declare (d : Declarations) : Directive → Reading Declarations
  | .version major =>
    if d.hasVersion || major != 1 then refuse else .ok { d with hasVersion := true }
  | .handle h expansion =>
    if Assoc.has d.handles h then refuse
    else .ok { d with handles := Assoc.set d.handles h expansion }
  | .other => .ok d

def declarations (d : Declarations) : List Token → Reading (Declarations × List Token)
  | .directive x :: rest => do
    let d ← declare d x
    declarations d rest
  | rest => .ok (d, rest)

/-- The handles in force: those declared, and the default ones that are not. -/
def Declarations.inForce (d : Declarations) : Assoc (List Char) (List Char) :=
  d.handles ++ defaultHandles

def dropDocumentEnds : List Token → List Token
  | .documentEnd :: rest => dropDocumentEnds rest
  | rest => rest

/-- Nothing but document ends may follow a document. -/
def finish (g : Graph) (rest : List Token) : Reading (Option Graph) := do
  let rest := dropDocumentEnds rest
  if rest.isEmpty then return some g
  else
    let (_, rest) ← declarations ⟨false, []⟩ rest
    unexpected rest

def fuelFor (tokens : List Token) : Nat := 4 * tokens.length + 8

def documentNode (handles : Assoc (List Char) (List Char)) (tokens : List Token) :
    Reading (Option Graph) := do
  let (n, f) ← node .entry (fuelFor tokens) ⟨tokens, [], handles, #[]⟩
  finish ⟨f.nodes, n⟩ f.tokens

/-- Whether a document after its mark has nothing in it. -/
def startsEmpty : List Token → Bool
  | [] => true
  | .directive _ :: _ => true
  | .documentStart :: _ => true
  | .documentEnd :: _ => true
  | _ => false

/-- A document that starts with its mark or with directives. -/
def markedDocument (tokens : List Token) : Reading (Option Graph) := do
  let (d, rest) ← declarations ⟨false, []⟩ tokens
  match rest with
  | .documentStart :: rest =>
    if startsEmpty rest then finish ⟨#[empty], 0⟩ rest else documentNode d.inForce rest
  | tokens => unexpected tokens

/-- The nodes of the only document, or `none` for an empty text. -/
def graphOf (tokens : List Token) : Reading (Option Graph) :=
  match tokens with
  | [] => .ok none
  | .directive _ :: _ => markedDocument tokens
  | .documentStart :: _ => markedDocument tokens
  | _ => documentNode defaultHandles tokens

end Node

end Reckoner.Yaml

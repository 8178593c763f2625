import Bluespec.Parser
import Bluespec.Text.Bytes

/-!
# Concrete trees

A **`Concrete`** tree keeps every character of the source at its leaves.  It has one inner node for each
recognised declaration; blanks and comments between declarations stay at the outer level, and text that
is no token stands alone in a node.

* **`Concrete.text`** — the source text of a tree.
* **`Concrete.ofTokens`** — the tree over the tokens of a source with the given declarations.
-/

namespace Bluespec

/-- A tree with the source text at its leaves. -/
inductive Concrete
  /-- One token. -/
  | leaf (kind : Kind) (text : String)
  /-- A node with its parts in order. -/
  | node (kind : Kind) (children : List Concrete)

namespace Concrete

mutual

/-- The source text of a tree. -/
def text : Concrete → List Char
  | leaf _ t => t.toList
  | node _ children => texts children

/-- The source text of trees in a row. -/
def texts : List Concrete → List Char
  | [] => []
  | t :: ts => t.text ++ texts ts

end

/-- The number of bytes of a tree's text. -/
def byteSize (t : Concrete) : Nat := Text.byteSize t.text

/-! ## Nodes to open -/

/-- Whether one declaration is opened before another: the one that starts first, or else the longer
one. -/
def opensBefore (a b : NodeSpan) : Bool :=
  a.span.start < b.span.start || (a.span.start == b.span.start && b.span.stop ≤ a.span.stop)

/-- Declarations in the order in which they are opened. -/
def openingOrder (nodes : List NodeSpan) : List NodeSpan := nodes.mergeSort opensBefore

/-! ## Building a tree -/

/-- A node that is not finished. -/
structure Frame where
  /-- The kind of the node. -/
  kind : NodeKind
  /-- The offset at which it ends. -/
  stop : Nat
  /-- The parts so far, the last one first. -/
  children : List Concrete

/-- A frame with more parts, the last one first. -/
def Frame.add (f : Frame) (parts : List Concrete) : Frame :=
  { f with children := parts ++ f.children }

/-- The finished node of a frame. -/
def Frame.close (f : Frame) : Concrete := node (.node f.kind) f.children.reverse

/-- The tree while it is built. -/
structure Builder where
  /-- The unfinished nodes, the innermost one first. -/
  frames : List Frame
  /-- The parts of the root, the last one first. -/
  children : List Concrete
  /-- The declarations that are not opened yet. -/
  pending : List NodeSpan

namespace Builder

/-- Finishes nodes, from the innermost one outwards, for as long as they end at or before an offset.
The parts belong to the innermost node. -/
def closeUntil (offset : Nat) (b : Builder) (parts : List Concrete) : List Frame → Builder
  | [] => { b with frames := [], children := parts ++ b.children }
  | f :: fs =>
    if f.stop ≤ offset then closeUntil offset b [(f.add parts).close] fs
    else { b with frames := f.add parts :: fs }

/-- Opens the declarations that start at or before an offset; one that also ends there is left out. -/
def openUntil (offset : Nat) (b : Builder) : List NodeSpan → Builder
  | [] => { b with pending := [] }
  | n :: ns =>
    if n.span.start ≤ offset then
      if n.span.stop ≤ offset then openUntil offset b ns
      else openUntil offset { b with frames := ⟨n.kind, n.span.stop, []⟩ :: b.frames } ns
    else { b with pending := n :: ns }

/-- Adds a part to the innermost unfinished node. -/
def push (b : Builder) (part : Concrete) : Builder :=
  match b.frames with
  | [] => { b with children := part :: b.children }
  | f :: fs => { b with frames := f.add [part] :: fs }

/-- The part of the tree for one token. -/
def partOf (t : Token) : Concrete :=
  if t.kind = .error then node .error [leaf .error t.text] else leaf t.kind t.text

/-- Adds a token, after the nodes that end before it and inside the nodes that start with it. -/
def addToken (b : Builder) (t : Token) : Builder :=
  let closed := closeUntil t.span.start b [] b.frames
  (openUntil t.span.start closed closed.pending).push (partOf t)

/-- Finishes all nodes and yields the parts of the root. -/
def finish (parts root : List Concrete) : List Frame → List Concrete
  | [] => (parts ++ root).reverse
  | f :: fs => finish [(f.add parts).close] root fs

end Builder

/-- The tree over all tokens of a source, with a node for each declaration. -/
def ofTokens (tokens : List Token) (nodes : List NodeSpan) : Concrete :=
  let b := tokens.foldl Builder.addToken ⟨[], [], openingOrder nodes⟩
  node (.node .sourceFile) (Builder.finish [] b.children b.frames)

end Concrete

end Bluespec

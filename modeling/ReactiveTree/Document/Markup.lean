import ReactiveTree.Document.Basic

/-! # Documents as text

The markup of a node shows its tag, its attributes and its children; an attribute with an empty
value is shown by its name alone. The outline of a node shows the numbers of the nodes below it.
-/

namespace ReactiveTree

namespace Document

/-- Replace every occurrence of one character. -/
def replaceChar (target : Char) (entity : List Char) (text : List Char) : List Char :=
  text.flatMap fun char => if char = target then entity else [char]

/-- Name the four characters that have a meaning in markup. The ampersand comes first, since the
names of the others begin with one. -/
def escape (text : List Char) : List Char :=
  replaceChar '"' ['&', 'q', 'u', 'o', 't', ';']
    (replaceChar '>' ['&', 'g', 't', ';']
      (replaceChar '<' ['&', 'l', 't', ';']
        (replaceChar '&' ['&', 'a', 'm', 'p', ';'] text)))

/-- One attribute with the blank before it. -/
def attributeMarkup (entry : String × String) : List Char :=
  let name := ' ' :: entry.1.toList
  if entry.2 = "" then name
  else name ++ ['=', '"'] ++ escape entry.2.toList ++ ['"']

/-- The markup of a node down to a depth. -/
def markupTo (document : Document) : Nat → HostId → List Char
  | 0, _ => []
  | depth + 1, id =>
    match document.node? id with
    | none => []
    | some node =>
      match node.content with
      | .text content => escape content.toList
      | .element tag attributes _ =>
        ['<'] ++ tag.toList ++ attributes.flatMap attributeMarkup ++ ['>']
          ++ node.children.flatMap (document.markupTo depth) ++ ['<', '/'] ++ tag.toList ++ ['>']

/-- The markup of a node and all below it; no path is longer than the number of nodes. -/
def markup (document : Document) (id : HostId) : String :=
  String.ofList (document.markupTo document.nodes.length id)

/-- The markup of everything below a node. -/
def innerMarkup (document : Document) (id : HostId) : String :=
  String.ofList ((document.children id).flatMap (document.markupTo document.nodes.length))

/-- The numbers of some nodes, each followed by those below it, down to a depth. -/
def outlineTo (document : Document) : Nat → HostId → List Char
  | 0, _ => []
  | depth + 1, id =>
    let below := (document.children id).map (document.outlineTo depth)
    let number := (toString id.index).toList
    if below.isEmpty then number else number ++ ['('] ++ [' '].intercalate below ++ [')']

/-- The number of a node, followed in brackets by the outlines of its children. -/
def outline (document : Document) (id : HostId) : String :=
  String.ofList (document.outlineTo (document.nodes.length + 1) id)

end Document

end ReactiveTree

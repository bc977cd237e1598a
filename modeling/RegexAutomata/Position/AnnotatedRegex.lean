import RegexAutomata.Position.FollowTable

/-!
# Annotating a tree

The characters of a tree are gone through twice.  The first pass numbers them and enters each
position with its symbol, without followers as yet, so that the second pass finds every position
entered.  The second pass counts anew, writes on each node what there is to say about its words, and
enters followers as it learns of them, where one part of the tree comes after another.  Only the
second pass stops at a node of unknown kind.
-/

namespace RegexAutomata

/-- What is written on a node: whether the empty word is among its words, and the positions that
words start with and end with. -/
structure NodeNotes where
  nullable : Bool
  first : List Position
  last : List Position
  deriving DecidableEq, Repr

namespace NodeNotes

def leaf (position : Position) : NodeNotes :=
  ⟨false, [position], [position]⟩

def concat (left right : NodeNotes) : NodeNotes where
  nullable := left.nullable && right.nullable
  first := if left.nullable then Ascending.union left.first right.first else left.first
  last := if right.nullable then Ascending.union left.last right.last else right.last

def alternation (left right : NodeNotes) : NodeNotes where
  nullable := left.nullable || right.nullable
  first := Ascending.union left.first right.first
  last := Ascending.union left.last right.last

def star (inner : NodeNotes) : NodeNotes where
  nullable := true
  first := inner.first
  last := inner.last

end NodeNotes

/-- A regular expression with notes on every node. -/
inductive AnnotatedRegex where
  | leaf (value : String) (position : Position) (notes : NodeNotes)
  | concat (left right : AnnotatedRegex) (notes : NodeNotes)
  | alternation (left right : AnnotatedRegex) (notes : NodeNotes)
  | star (inner : AnnotatedRegex) (notes : NodeNotes)
  deriving DecidableEq, Repr

namespace AnnotatedRegex

def notes : AnnotatedRegex → NodeNotes
  | leaf _ _ notes => notes
  | concat _ _ notes => notes
  | alternation _ _ notes => notes
  | star _ notes => notes

/-- All nodes, each before its own parts. -/
def subtrees : AnnotatedRegex → List AnnotatedRegex
  | leaf value position notes => [leaf value position notes]
  | concat left right notes => concat left right notes :: left.subtrees ++ right.subtrees
  | alternation left right notes => alternation left right notes :: left.subtrees ++ right.subtrees
  | star inner notes => star inner notes :: inner.subtrees

end AnnotatedRegex

/-- How many positions are counted, and the symbols and the followers of all that are entered. -/
structure Ledger where
  counted : Position := 0
  symbols : Table Position String := []
  follow : Table Position (List Position) := []
  deriving DecidableEq, Repr

namespace Ledger

/-- Counts one more position and enters it. -/
def enter (ledger : Ledger) (value : String) : Ledger :=
  let position := ledger.counted + 1
  { counted := position
    symbols := Table.put ledger.symbols position value
    follow := Table.put ledger.follow position [] }

/-- Adds to the followers of a position that is entered. -/
def extend (after : List Position) (follow : Table Position (List Position))
    (position : Position) : Except Failure (Table Position (List Position)) :=
  match Table.value? position follow with
  | some known => .ok (Table.put follow position (Ascending.union after known))
  | none => .error (.noSuchPosition position)

/-- Lets every position of one set be followed by every position of another. -/
def link (ledger : Ledger) (before after : List Position) : Except Failure Ledger := do
  return { ledger with follow := ← before.foldlM (extend after) ledger.follow }

end Ledger

/-- An annotated tree, with the symbol and the followers of each position. -/
structure Annotated where
  root : AnnotatedRegex
  symbols : Table Position String
  follow : Table Position (List Position)
  deriving DecidableEq, Repr

def Annotated.table (annotated : Annotated) : FollowTable :=
  ⟨annotated.root.notes.first, annotated.symbols, annotated.follow⟩

namespace Regex

/-- The first pass.  Nodes of unknown kind are passed over. -/
def number (ledger : Ledger) : Regex → Ledger
  | char value => ledger.enter value
  | concat left right => right.number (left.number ledger)
  | alternation left right => right.number (left.number ledger)
  | star inner => inner.number ledger
  | unknown _ _ => ledger

/-- The second pass. -/
def annotateFrom (ledger : Ledger) : Regex → Except Failure (AnnotatedRegex × Ledger)
  | char value =>
    let position := ledger.counted + 1
    .ok (.leaf value position (.leaf position), { ledger with counted := position })
  | concat left right => do
    let (first, ledgerLeft) ← annotateFrom ledger left
    let (second, ledgerRight) ← annotateFrom ledgerLeft right
    let linked ← ledgerRight.link first.notes.last second.notes.first
    return (.concat first second (.concat first.notes second.notes), linked)
  | alternation left right => do
    let (first, ledgerLeft) ← annotateFrom ledger left
    let (second, ledgerRight) ← annotateFrom ledgerLeft right
    return (.alternation first second (.alternation first.notes second.notes), ledgerRight)
  | star inner => do
    let (repeated, ledgerInner) ← annotateFrom ledger inner
    let linked ← ledgerInner.link repeated.notes.last repeated.notes.first
    return (.star repeated (.star repeated.notes), linked)
  | unknown kind _ => .error (.unknownNode kind)

/-- Annotates the expression with the end marker after it. -/
def annotate (regex : Regex) : Except Failure Annotated := do
  let ended := concat regex (char endMarker)
  let numbered := ended.number {}
  let (root, ledger) ← ended.annotateFrom { numbered with counted := 0 }
  return ⟨root, ledger.symbols, ledger.follow⟩

end Regex
end RegexAutomata

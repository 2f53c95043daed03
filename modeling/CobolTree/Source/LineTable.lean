import CobolTree.Source.Position

/-!
From byte offsets to positions. A `LineTable` lists where the lines of one text begin;
lines break at line feeds only, so a carriage return belongs to the line it ends. A
`LinedText` is a text kept together with its own table.
-/

namespace CobolTree

/-- Byte offsets of the beginnings of lines, in ascending order. -/
structure LineTable where
  starts : List Nat
deriving DecidableEq, Repr

namespace LineTable

/-- Offsets right behind the line feeds of a text that begins at `offset`. -/
def breaks (offset : Nat) : Text → List Nat
  | [] => []
  | c :: cs =>
      if c = '\n' then (offset + c.utf8Size) :: breaks (offset + c.utf8Size) cs
      else breaks (offset + c.utf8Size) cs

/-- The table of a text; its first line begins at offset zero. -/
def ofText (text : Text) : LineTable := ⟨0 :: breaks 0 text⟩

/-- Line, column and offset of a byte offset of the tabulated text. The line is the last one
that begins at or before the offset. The column counts characters, or bytes where the offset
lies inside a character, and stops at the end of the text. -/
def position (table : LineTable) (text : Text) (offset : Nat) : Position :=
  let reached := table.starts.takeWhile (· ≤ offset)
  let lineStart := reached.getLastD 0
  let stop := min offset text.byteLength
  let column :=
    match text.slice? lineStart stop with
    | some line => line.length
    | none => stop - lineStart
  ⟨reached.length - 1, column, offset⟩

end LineTable

/-- A text with the table of its lines. -/
structure LinedText where
  text : Text
  lines : LineTable
  lines_eq : lines = LineTable.ofText text

namespace LinedText

def ofText (text : Text) : LinedText := ⟨text, LineTable.ofText text, rfl⟩

def position (source : LinedText) (offset : Nat) : Position :=
  source.lines.position source.text offset

end LinedText

end CobolTree

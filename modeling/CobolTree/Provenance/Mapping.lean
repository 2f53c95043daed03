import CobolTree.Source.Position

/-!
Where the parts of an expanded text were written. Expanding a copybook puts text from
another document in place of the statement that asked for it; an entry records the range
that was put in, and where its first character was written. Entries are kept in the
order of their ranges, and of two that begin at one offset the later addition stands
second.
-/

namespace CobolTree

/-- A stretch of a named document. -/
structure Location where
  uri : String
  span : Span
deriving DecidableEq, Repr

/-- A range of an expanded text that was written elsewhere. -/
structure MappingEntry where
  /-- The range in the expanded text. -/
  expanded : Range
  /-- The document it was written in. -/
  uri : String
  /-- Where its first character stands in that document. -/
  written : Position
  /-- The name of the region, such as that of a copybook. -/
  name : Option String
deriving DecidableEq, Repr

/-- The ranges of an expanded text that were written elsewhere; the rest was written in the
main document, where it stands. -/
structure DocumentMapping where
  uri : String
  entries : List MappingEntry
deriving DecidableEq, Repr

namespace DocumentMapping

/-- No range was written elsewhere. -/
def plain (uri : String) : DocumentMapping := ⟨uri, []⟩

/-- The entry begins at or before an offset. -/
def reaches (offset : Nat) (entry : MappingEntry) : Bool := decide (entry.expanded.start ≤ offset)

/-- Adds an entry behind all entries that begin at or before it. -/
def push (entry : MappingEntry) (mapping : DocumentMapping) : DocumentMapping :=
  let earlier := reaches entry.expanded.start
  { mapping with
    entries := mapping.entries.takeWhile earlier ++ entry :: mapping.entries.dropWhile earlier }

/-- Adding an entry keeps every other. -/
theorem perm_entries_push (entry : MappingEntry) (mapping : DocumentMapping) :
    (mapping.push entry).entries.Perm (entry :: mapping.entries) := by
  have parts := mapping.entries.takeWhile_append_dropWhile
    (p := reaches entry.expanded.start)
  refine List.perm_middle.trans (List.Perm.cons entry ?_)
  rw [parts]

/-- The mapping with entries added one after another. -/
def ofEntries (uri : String) (entries : List MappingEntry) : DocumentMapping :=
  entries.foldl (fun mapping entry => mapping.push entry) (plain uri)

/-- The last entry that begins at or before an offset, if it holds the offset. -/
def entryAt? (offset : Nat) (mapping : DocumentMapping) : Option MappingEntry :=
  (mapping.entries.takeWhile (reaches offset)).getLast?.filter (·.expanded.contains offset)

end DocumentMapping

end CobolTree

import CodeRag.Discovery.Report
import CodeRag.Discovery.Theorems.Traversal

-- Which units of a file are reported.

namespace Report

variable {units us : List KnowledgeUnit} {u u' : KnowledgeUnit} {n p : String}

-- The units of a file that are to be reported.
def firstUnits (units : List KnowledgeUnit) (path : String) : List KnowledgeUnit :=
  ((units.filter (·.path = path)).filter (·.kind ≠ .module)).take UNITS_PER_FILE

-- An entry of a report shows the name and the signature of a unit.
inductive Entry (u : KnowledgeUnit) : List String → Prop
  | bare :
    Entry u [s!"- **{u.kind.value.capitalize}: {u.name}**", s!"  `{KnowledgeUnit.format u.signature}`"]
  | documented {line : String} :
    Entry u [s!"- **{u.kind.value.capitalize}: {u.name}**", "  *(" ++ line ++ ")*",
      s!"  `{KnowledgeUnit.format u.signature}`"]

-- The lines show the units of each group below the heading with its name.
inductive Shows : Groups → List String → Prop
  | nil : Shows [] []
  | cons {name : String} {shown : List KnowledgeUnit} {entries : List (List String)} {groups : Groups}
    {lines : List String} :
    List.Forall₂ Entry shown entries → Shows groups lines →
    Shows ((name, shown) :: groups) (heading name :: (entries.flatten ++ lines))

-- The report shows the first units of every file in their order, below a heading with its name.
-- `lines` are what it consists of before the limit is applied.
structure Apart (text : String) (lines : List String) (units : List KnowledgeUnit) : Prop where
  text  : units ≠ [] → text = joinReport lines
  shows : ∃ title groups body, lines = title :: body ∧ Shows groups body ∧ ∀ u ∈ units,
    ∃ shown, (fileName u, shown) ∈ groups ∧ (firstUnits units u.path).Sublist shown

section Lines

variable {groups groups' : Groups} {lines body : List String} {title text : String}

-- What the first character of a line tells: it is a heading, or the first line of an entry.
def mark (line : String) : Option (Option String) :=
  match line.toList.head? with
  | some '\n' => some (some line)
  | some '-'  => some none
  | _         => none

end Lines

section Quota

variable {shown : List KnowledgeUnit}

end Quota

section Sample

end Sample

end Report

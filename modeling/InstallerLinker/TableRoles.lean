/-
  Installer linker — the tables that play a part in linking.

  The linker knows nothing about what tables mean, with three exceptions, which
  are settings and not built in: the table that holds cross references, the
  media tables, which a merge module does without, and the tables in which rows
  of one name are expected and hence no conflict.

  * `TableRoles` are the settings, `TableRoles.standard` the usual ones;
  * `roleOf` gives a table its first role in that order.
-/

namespace InstallerLinker

/-- The part that a table plays in linking. -/
inductive TableRole where
  /-- Its rows are the references between sections. -/
  | crossReference
  /-- References into it are skipped when a merge module is built. -/
  | media
  /-- Rows of one name are no conflict. -/
  | conflictExempt
  /-- None of these. -/
  | ordinary
  deriving DecidableEq, Inhabited

/-- The names of the tables that play a part in linking. -/
structure TableRoles where
  crossReferenceTable : String
  mediaTables : List String
  conflictExemptTables : List String
  deriving DecidableEq

namespace TableRoles

/-- The table that usually holds the cross references. -/
def standardCrossReferenceTable : String := "WixSimpleReference"

/-- The table that usually holds the media. -/
def standardMediaTable : String := "Media"

/-- The table of actions; a later stage settles which of two actions of one name
    is meant. -/
def actionTable : String := "WixAction"

/-- The table of variables; a later value is meant to hide an earlier one. -/
def variableTable : String := "WixVariable"

/-- The roles that tables usually have. -/
def standard : TableRoles where
  crossReferenceTable := standardCrossReferenceTable
  mediaTables := [standardMediaTable]
  conflictExemptTables := [actionTable, variableTable]

instance : Inhabited TableRoles := ⟨standard⟩

/-- No special tables, except for the one that holds the cross references. -/
def only (crossReferenceTable : String) : TableRoles := ⟨crossReferenceTable, [], []⟩

variable (roles : TableRoles)

/-- Count a table among the media tables. -/
def addMedia (table : String) : TableRoles :=
  { roles with mediaTables := roles.mediaTables ++ [table] }

/-- Exempt a table from the report of conflicts. -/
def exempt (table : String) : TableRoles :=
  { roles with conflictExemptTables := roles.conflictExemptTables ++ [table] }

/-- Exempt a table no longer. -/
def unexempt (table : String) : TableRoles :=
  { roles with conflictExemptTables := roles.conflictExemptTables.filter (· ≠ table) }

/-- Whether the rows of a table are cross references. -/
def isCrossReference (table : String) : Bool := roles.crossReferenceTable == table

/-- Whether a table is a media table. -/
def isMedia (table : String) : Bool := roles.mediaTables.contains table

/-- Whether conflicts in a table are not reported. -/
def isConflictExempt (table : String) : Bool := roles.conflictExemptTables.contains table

/-- The role of a table; a table named for several roles has the first of them. -/
def roleOf (table : String) : TableRole :=
  if roles.isCrossReference table then .crossReference
  else if roles.isMedia table then .media
  else if roles.isConflictExempt table then .conflictExempt
  else .ordinary

/-! ## Changing the settings -/

@[simp] theorem isMedia_addMedia (t u : String) :
    (roles.addMedia t).isMedia u = (roles.isMedia u || u == t) := by
  rw [Bool.eq_iff_iff]
  simp [addMedia, isMedia]

@[simp] theorem isConflictExempt_exempt (t u : String) :
    (roles.exempt t).isConflictExempt u = (roles.isConflictExempt u || u == t) := by
  rw [Bool.eq_iff_iff]
  simp [exempt, isConflictExempt]

@[simp] theorem isConflictExempt_unexempt (t u : String) :
    (roles.unexempt t).isConflictExempt u = (roles.isConflictExempt u && u != t) := by
  rw [Bool.eq_iff_iff]
  simp [unexempt, isConflictExempt]

end TableRoles

end InstallerLinker

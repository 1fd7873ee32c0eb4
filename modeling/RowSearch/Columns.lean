import RowSearch.Value
/-!
# Columns

A map from column names to values, kept in ascending order of the names by code point. The order is
part of the type, so a map has one form: two maps with the same columns are equal.
-/

namespace RowSearch

/-- Values by column name, in ascending order of the names. -/
structure Columns where
  entries : List (String × Value)
  ascending : entries.Pairwise fun a b => a.1 < b.1
deriving DecidableEq

namespace Columns

def empty : Columns := ⟨[], .nil⟩

/-- Puts a value under a name into an ascending list, in the place of the one already there. -/
def insertInto (name : String) (value : Value) :
    List (String × Value) → List (String × Value)
  | [] => [(name, value)]
  | entry :: rest =>
    if name < entry.1 then (name, value) :: entry :: rest
    else if name = entry.1 then (name, value) :: rest
    else entry :: insertInto name value rest

theorem mem_insertInto {name : String} {value : Value} {entries : List (String × Value)}
    {entry : String × Value} (h : entry ∈ insertInto name value entries) :
    entry = (name, value) ∨ entry ∈ entries := by
  induction entries with
  | nil => simpa [insertInto] using h
  | cons head rest ih =>
    simp only [insertInto] at h
    split at h
    · simpa using h
    · split at h
      · rcases List.mem_cons.mp h with h | h
        · exact .inl h
        · exact .inr (List.mem_cons_of_mem _ h)
      · rcases List.mem_cons.mp h with h | h
        · exact .inr (h ▸ List.mem_cons_self)
        · exact (ih h).imp_right (List.mem_cons_of_mem _)

theorem ascending_insertInto (name : String) (value : Value) {entries : List (String × Value)}
    (h : entries.Pairwise fun a b => a.1 < b.1) :
    (insertInto name value entries).Pairwise fun a b => a.1 < b.1 := by
  induction entries with
  | nil => exact List.pairwise_singleton _ _
  | cons head rest ih =>
    have hrest := List.pairwise_cons.mp h
    simp only [insertInto]
    split
    · next hlt =>
      refine List.pairwise_cons.mpr ⟨fun entry hentry => ?_, h⟩
      rcases List.mem_cons.mp hentry with rfl | hmem
      · exact hlt
      · exact String.lt_trans hlt (hrest.1 entry hmem)
    · next hge =>
      split
      · next heq =>
        exact List.pairwise_cons.mpr ⟨fun entry hentry => heq ▸ hrest.1 entry hentry, hrest.2⟩
      · next hne =>
        refine List.pairwise_cons.mpr ⟨fun entry hentry => ?_, ih hrest.2⟩
        rcases mem_insertInto hentry with rfl | hmem
        · exact Std.lt_of_le_of_ne (String.not_lt.mp hge) (Ne.symm hne)
        · exact hrest.1 entry hmem

def insert (columns : Columns) (name : String) (value : Value) : Columns :=
  ⟨insertInto name value columns.entries, ascending_insertInto name value columns.ascending⟩

def get? (columns : Columns) (name : String) : Option Value :=
  columns.entries.lookup name

/-- The columns of a list of pairs. Of several pairs with one name the last one counts. -/
def ofList (pairs : List (String × Value)) : Columns :=
  pairs.foldl (fun columns pair => columns.insert pair.1 pair.2) empty

end Columns

end RowSearch

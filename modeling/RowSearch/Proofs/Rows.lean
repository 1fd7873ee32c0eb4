import RowSearch.Proofs.Outcome
import RowSearch.Row
/-!
# What rows carry

Columns are ascending by name, so they are determined by what is found under each name, and nothing
depends on the order in which they were put together. Every row, however it was made, holds a text
under the raw name; the other columns are those of its source. Where the source has no such text, it
is that of the other columns in their order.

A row goes back and forth between its own form and that of its source without loss: its searchable text
is a text already, so it is taken over as it is. In JSON only a number that is not finite is lost.
-/

namespace RowSearch

/-! ### Columns -/

theorem lookup_cons_eq {α : Type} (name : String) (pair : String × α) (rest : List (String × α)) :
    (pair :: rest).lookup name = if name = pair.1 then some pair.2 else rest.lookup name := by
  obtain ⟨first, found⟩ := pair
  rw [List.lookup_cons]
  by_cases hname : name = first
  · simp [hname]
  · rw [beq_eq_false_iff_ne.mpr hname, if_neg hname]

/-- In a list of pairs with distinct names a value is found under the name that it stands with. -/
theorem lookup_eq_some_of_nodup {pairs : List (String × Value)} (h : (pairs.map Prod.fst).Nodup)
    {name : String} {value : Value} : pairs.lookup name = some value ↔ (name, value) ∈ pairs := by
  induction pairs with
  | nil => simp
  | cons pair rest ih =>
    obtain ⟨first, found⟩ := pair
    rw [List.map_cons, List.nodup_cons] at h
    rw [lookup_cons_eq, List.mem_cons, Prod.mk.injEq]
    by_cases hname : name = first
    · subst hname
      have habsent : (name, value) ∉ rest := fun hmem => h.1 (List.mem_map.mpr ⟨_, hmem, rfl⟩)
      simp [habsent, eq_comm]
    · rw [if_neg hname, ih h.2]
      simp [hname]

/-- Two ascending lists of pairs with the same pairs are equal. -/
theorem eq_of_ascending {xs ys : List (String × Value)} (hx : xs.Pairwise fun a b => a.1 < b.1)
    (hy : ys.Pairwise fun a b => a.1 < b.1) (h : ∀ pair, pair ∈ xs ↔ pair ∈ ys) : xs = ys := by
  have hnodup {l : List (String × Value)} (hl : l.Pairwise fun a b => a.1 < b.1) : l.Nodup := by
    apply hl.imp
    rintro a b hlt rfl
    exact String.lt_irrefl _ hlt
  have hperm : xs.Perm ys := (List.perm_ext_iff_of_nodup (hnodup hx) (hnodup hy)).mpr h
  refine hperm.eq_of_pairwise ?_ hx hy
  intro a b _ _ hab hba
  exact absurd (String.lt_trans hab hba) (String.lt_irrefl _)

namespace Columns

variable {columns : Columns} {name : String} {value : Value}

theorem nodup_names (columns : Columns) : (columns.entries.map Prod.fst).Nodup := by
  rw [List.Nodup, List.pairwise_map]
  apply columns.ascending.imp
  intro a b hlt heq
  rw [heq] at hlt
  exact String.lt_irrefl _ hlt

theorem get?_eq_some : columns.get? name = some value ↔ (name, value) ∈ columns.entries :=
  lookup_eq_some_of_nodup columns.nodup_names

theorem ext_get? {columns columns' : Columns} (h : ∀ name, columns.get? name = columns'.get? name) :
    columns = columns' := by
  have hentries : columns.entries = columns'.entries := by
    refine eq_of_ascending columns.ascending columns'.ascending ?_
    rintro ⟨name, value⟩
    rw [← get?_eq_some, ← get?_eq_some, h]
  cases columns
  cases hentries
  rfl

theorem get?_insert (columns : Columns) (name : String) (value : Value) (name' : String) :
    (columns.insert name value).get? name' = if name' = name then some value else columns.get? name' := by
  show (insertInto name value columns.entries).lookup name' = if _ then _ else columns.entries.lookup name'
  induction columns.entries with
  | nil => rw [insertInto, lookup_cons_eq]
  | cons entry rest ih =>
    rw [insertInto]
    split
    · rw [lookup_cons_eq]
    · split
      · next heq =>
        rw [lookup_cons_eq, lookup_cons_eq, ← heq]
        split <;> rfl
      · next hne =>
        rw [lookup_cons_eq, lookup_cons_eq, ih]
        by_cases hfirst : name' = entry.1
        · have hother : name' ≠ name := fun heq => hne (heq ▸ hfirst)
          rw [if_pos hfirst, if_neg hother, if_pos hfirst]
        · rw [if_neg hfirst, if_neg hfirst]

theorem get?_foldl_insert (pairs : List (String × Value)) (columns : Columns) (name : String) :
    (pairs.foldl (fun columns pair => columns.insert pair.1 pair.2) columns).get? name =
      (pairs.reverse.lookup name).or (columns.get? name) := by
  induction pairs generalizing columns with
  | nil => rfl
  | cons pair rest ih =>
    rw [List.foldl_cons, ih, get?_insert, List.reverse_cons, List.lookup_append, lookup_cons_eq,
      Option.or_assoc]
    by_cases hname : name = pair.1 <;> simp [hname]

/-- Under each name the last of the pairs with that name counts. -/
theorem get?_ofList (pairs : List (String × Value)) (name : String) :
    (ofList pairs).get? name = pairs.reverse.lookup name := by
  rw [ofList, get?_foldl_insert]
  exact Option.or_none

theorem get?_ofList_of_nodup {pairs : List (String × Value)} (h : (pairs.map Prod.fst).Nodup) :
    (ofList pairs).get? name = some value ↔ (name, value) ∈ pairs := by
  have hreverse : (pairs.reverse.map Prod.fst).Nodup := by
    rw [List.map_reverse]
    exact List.pairwise_reverse.mpr (h.imp Ne.symm)
  rw [get?_ofList, lookup_eq_some_of_nodup hreverse, List.mem_reverse]

theorem ofList_entries (columns : Columns) : ofList columns.entries = columns := by
  apply ext_get?
  intro name
  ext value
  rw [get?_ofList_of_nodup columns.nodup_names, get?_eq_some]

/-- Pairs with distinct names give the same columns in any order. -/
theorem ofList_perm {pairs pairs' : List (String × Value)} (h : (pairs.map Prod.fst).Nodup)
    (hperm : pairs.Perm pairs') : ofList pairs = ofList pairs' := by
  apply ext_get?
  intro name
  ext value
  rw [get?_ofList_of_nodup h, get?_ofList_of_nodup ((hperm.map Prod.fst).nodup h), hperm.mem_iff]

end Columns

/-! ### Rows -/

namespace Row

/-- A row over a source of values by name. It holds a text under the raw name, which is its searchable
text, and its fields are the values of the source under all other names, in ascending order. -/
structure Over (row : Row) (source : String → Option Value) : Prop where
  raw_column : row.get? rawName = some (.text row.raw)
  mem_fields : ∀ name value, (name, value) ∈ row.fields ↔ name ≠ rawName ∧ source name = some value
  ascending : row.fields.Pairwise fun a b => a.1 < b.1

/-- A row over a source that takes its searchable text from there: what the source has under the raw
name, or else the texts of its fields in their order. -/
structure Derives (row : Row) (source : String → Option Value) : Prop extends Over row source where
  given : ∀ value, source rawName = some value → row.raw = value.display
  derived : source rawName = none →
    row.raw = String.intercalate " " (row.fields.map fun field => field.2.display)

section Make

variable {row : Row} {name : String} {value : Value}

theorem get?_withRaw (columns : Columns) (raw name : String) :
    (withRaw columns raw).get? name = if name = rawName then some (.text raw) else columns.get? name :=
  Columns.get?_insert columns rawName (.text raw) name

theorem raw_eq {raw : String} (h : row.get? rawName = some (.text raw)) : row.raw = raw := by
  rw [Row.raw, h]

theorem raw_withRaw (columns : Columns) (raw : String) : (withRaw columns raw).raw = raw := by
  apply raw_eq
  rw [get?_withRaw, if_pos rfl]

theorem mem_fields : (name, value) ∈ row.fields ↔ name ≠ rawName ∧ row.get? name = some value := by
  rw [fields, List.mem_filter, ← Columns.get?_eq_some, decide_eq_true_iff, and_comm, get?]

theorem ascending_fields (row : Row) : row.fields.Pairwise fun a b => a.1 < b.1 :=
  row.columns.ascending.filter _

theorem over_withRaw (columns : Columns) (raw : String) : (withRaw columns raw).Over columns.get? where
  raw_column := by rw [raw_withRaw, get?_withRaw, if_pos rfl]
  mem_fields name value := by
    rw [mem_fields, get?_withRaw]
    constructor
    · intro h
      obtain ⟨hname, hvalue⟩ := h
      rw [if_neg hname] at hvalue
      exact ⟨hname, hvalue⟩
    · intro h
      obtain ⟨hname, hvalue⟩ := h
      rw [if_neg hname]
      exact ⟨hname, hvalue⟩
  ascending := ascending_fields _

/-- Columns without a searchable text are the fields of the row that is made of them. -/
theorem fields_withRaw {columns : Columns} (h : columns.get? rawName = none) (raw : String) :
    (withRaw columns raw).fields = columns.entries := by
  refine eq_of_ascending (ascending_fields _) columns.ascending ?_
  rintro ⟨name, value⟩
  rw [(over_withRaw columns raw).mem_fields, ← Columns.get?_eq_some, and_iff_right_iff_imp]
  rintro hvalue rfl
  rw [h] at hvalue
  cases hvalue

theorem derives_ofColumns (columns : Columns) : (ofColumns columns).Derives columns.get? where
  toOver := over_withRaw columns _
  given value h := by rw [ofColumns, raw_withRaw, rawOf, h]
  derived h := by rw [ofColumns, raw_withRaw, fields_withRaw h, rawOf, h]

theorem derives_ofList (pairs : List (String × Value)) :
    (ofList pairs).Derives fun name => pairs.reverse.lookup name := by
  have h := derives_ofColumns (Columns.ofList pairs)
  rwa [funext (Columns.get?_ofList pairs)] at h

/-- A row is made again of its own columns and its searchable text. -/
theorem withRaw_columns (h : row.get? rawName = some (.text row.raw)) :
    withRaw row.columns row.raw = row := by
  have hcolumns : row.columns.insert rawName (.text row.raw) = row.columns := by
    apply Columns.ext_get?
    intro name
    rw [Columns.get?_insert]
    split
    · next hname =>
      subst hname
      exact h.symm
    · rfl
  rw [withRaw, hcolumns]

theorem ofColumns_columns (h : row.get? rawName = some (.text row.raw)) : ofColumns row.columns = row := by
  have hraw : rawOf row.columns = row.raw := by
    rw [get?] at h
    rw [rawOf, h]
    rfl
  rw [ofColumns, hraw, withRaw_columns h]

end Make

/-! ### Rows and JSON -/

section Document

variable {row : Row} {members : List (String × Json)}

def valueIn (members : List (String × Json)) (name : String) : Option Value :=
  (Json.member? members name).bind Value.ofJson?

theorem lookup_of_map_eq {members : List (String × Json)} {pairs : List (String × Value)}
    (h : members.map (fun member => (Value.ofJson? member.2).map fun value => (member.1, value)) =
      pairs.map some) (name : String) :
    pairs.lookup name = (members.lookup name).bind Value.ofJson? := by
  induction members generalizing pairs with
  | nil =>
    cases pairs with
    | nil => rfl
    | cons pair pairs => cases h
  | cons member members ih =>
    cases pairs with
    | nil => cases h
    | cons pair pairs =>
      obtain ⟨hfirst, hrest⟩ := List.cons.inj h
      obtain ⟨value, hvalue, rfl⟩ := Option.map_eq_some_iff.mp hfirst
      rw [lookup_cons_eq, lookup_cons_eq, ih hrest]
      split
      · exact hvalue.symm
      · rfl

theorem ofJson?_object {row : Row} :
    ofJson? (.object members) = some row ↔
      ∃ pairs : List (String × Value),
        members.map (fun member => (Value.ofJson? member.2).map fun value => (member.1, value)) =
          pairs.map some ∧ ofList pairs = row := by
  rw [ofJson?, Option.map_eq_some_iff]
  simp only [mapM_eq_some]

theorem derives_ofJson {json : Json} (h : ofJson? json = some row) :
    ∃ members, json = .object members ∧ row.Derives (valueIn members) := by
  cases json with
  | object members =>
    obtain ⟨pairs, hpairs, rfl⟩ := ofJson?_object.mp h
    have hreverse := congrArg List.reverse hpairs
    rw [← List.map_reverse, ← List.map_reverse] at hreverse
    have hsource : (fun name => pairs.reverse.lookup name) = valueIn members :=
      funext (lookup_of_map_eq hreverse)
    exact ⟨members, rfl, hsource ▸ derives_ofList pairs⟩
  | null | bool _ | integer _ | real _ | text _ | array _ => cases h

/-- Every flat object is the source of a row. -/
theorem exists_ofJson (h : ∀ member ∈ members, (Value.ofJson? member.2).isSome) :
    ∃ row, ofJson? (.object members) = some row := by
  let pairs := members.map fun member => (member.1, (Value.ofJson? member.2).getD default)
  refine ⟨_, ofJson?_object.mpr ⟨pairs, ?_, rfl⟩⟩
  rw [List.map_map, List.map_inj_left]
  intro member hmember
  obtain ⟨value, hvalue⟩ := Option.isSome_iff_exists.mp (h member hmember)
  simp [hvalue]

theorem ofJson?_toJson (hraw : row.get? rawName = some (.text row.raw))
    (h : ∀ name x, row.get? name = some (.number x) → x.isFinite = true) :
    ofJson? row.toJson = some row := by
  refine ofJson?_object.mpr ⟨row.columns.entries, ?_, ?_⟩
  · rw [List.map_map, List.map_inj_left]
    rintro ⟨name, value⟩ hmem
    have hvalue : Value.ofJson? value.toJson = some value := by
      cases value with
      | bool b => rfl
      | text s => rfl
      | number x =>
        have hfinite : x.isFinite = true := h name x (Columns.get?_eq_some.mpr hmem)
        rw [Value.toJson, if_pos hfinite, Value.ofJson?]
    simp [hvalue]
  · rw [ofList, Columns.ofList_entries, ofColumns_columns hraw]

theorem ofJson?_toJson_eq_none {name : String} {x : Float} (h : row.get? name = some (.number x))
    (hx : x.isFinite = false) : ofJson? row.toJson = none := by
  rw [Option.eq_none_iff_forall_ne_some]
  intro row' hrow'
  obtain ⟨pairs, hpairs, -⟩ := ofJson?_object.mp hrow'
  -- the column with the number turns into a member that has no value
  have hmem : (none : Option (String × Value)) ∈ pairs.map some := by
    rw [← hpairs, List.map_map]
    refine List.mem_map.mpr ⟨_, Columns.get?_eq_some.mp h, ?_⟩
    simp [Value.toJson, hx, Value.ofJson?]
  simp at hmem

end Document

inductive Made : Row → Prop
  | withRaw (columns : Columns) (raw : String) : Made (withRaw columns raw)
  | ofColumns (columns : Columns) : Made (ofColumns columns)
  | ofList (pairs : List (String × Value)) : Made (ofList pairs)
  | ofJson {json : Json} {row : Row} : ofJson? json = some row → Made row

theorem Made.raw_column {row : Row} (h : Made row) : row.get? rawName = some (.text row.raw) := by
  cases h with
  | withRaw columns raw => exact (over_withRaw columns raw).raw_column
  | ofColumns columns => exact (derives_ofColumns columns).raw_column
  | ofList pairs => exact (derives_ofList pairs).raw_column
  | ofJson h =>
    obtain ⟨members, -, hrow⟩ := derives_ofJson h
    exact hrow.raw_column

/-- Rows carry what their source says and a searchable text besides, which is the one that they are
given or comes from the source. Of pairs under one name, and of members, the last one counts; the order
of pairs with distinct names does not. What a row was made of can be made into the row again: always of
its columns, and of its JSON form unless one of its numbers is not finite. -/
theorem carries_raw :
    (∀ columns raw, (withRaw columns raw).Over columns.get? ∧ (withRaw columns raw).raw = raw) ∧
    (∀ columns, (ofColumns columns).Derives columns.get?) ∧
    (∀ pairs, (ofList pairs).Derives fun name => pairs.reverse.lookup name) ∧
    (∀ pairs pairs', (pairs.map Prod.fst).Nodup → pairs.Perm pairs' → ofList pairs = ofList pairs') ∧
    (∀ json row, ofJson? json = some row →
      ∃ members, json = .object members ∧ row.Derives (valueIn members)) ∧
    (∀ members, (∀ member ∈ members, (Value.ofJson? member.2).isSome) →
      ∃ row, ofJson? (.object members) = some row) ∧
    ∀ row, Made row →
      ofColumns row.columns = row ∧
      ((∀ name x, row.get? name = some (.number x) → x.isFinite = true) →
        ofJson? row.toJson = some row) ∧
      ∀ name x, row.get? name = some (.number x) → x.isFinite = false → ofJson? row.toJson = none := by
  refine ⟨fun columns raw => ⟨over_withRaw columns raw, raw_withRaw columns raw⟩, derives_ofColumns,
    derives_ofList, ?_, fun _ _ => derives_ofJson, fun _ => exists_ofJson, ?_⟩
  · intro pairs pairs' hnodup hperm
    rw [ofList, ofList, Columns.ofList_perm hnodup hperm]
  · intro row hrow
    refine ⟨ofColumns_columns hrow.raw_column, ofJson?_toJson hrow.raw_column, ?_⟩
    intro name x hnumber hfinite
    exact ofJson?_toJson_eq_none hnumber hfinite

/-- Two pairs make the same row in either order, which comes back from its JSON form; a row with a number
that is none does not. -/
theorem carries_raw_of_two_orders :
    let pairs := [("title", Value.text "Rust"), ("id", .number 7.0)]
    let nowhere := ofList [("x", .number (0.0 / 0.0))]
    (pairs.map Prod.fst).Nodup ∧ ofList pairs = ofList pairs.reverse ∧ (ofList pairs).raw = "7 Rust" ∧
      ofJson? (ofList pairs).toJson = some (ofList pairs) ∧
      (∃ members, (ofList pairs).toJson = .object members ∧ (ofList pairs).Derives (valueIn members)) ∧
      (∃ row, ofJson? (.object [("id", .integer 7), ("id", .text "Rust")]) = some row) ∧
      nowhere.raw = "NaN" ∧ ofJson? nowhere.toJson = none := by
  intro pairs nowhere
  obtain ⟨-, -, hlist, hperm, hjson, hflat, hmade⟩ := carries_raw
  have hnodup : (pairs.map Prod.fst).Nodup := by decide
  have hentries : (ofList pairs).columns.entries =
      [("_raw", .text "7 Rust"), ("id", .number 7.0), ("title", .text "Rust")] := by decide +kernel
  have hfinite : ∀ name x, (ofList pairs).get? name = some (.number x) → x.isFinite = true := by
    intro name x hnumber
    have hmem := Columns.get?_eq_some.mp hnumber
    rw [hentries] at hmem
    obtain ⟨rfl, rfl⟩ : name = "id" ∧ x = 7.0 := by simpa using hmem
    decide +kernel
  have hback := (hmade _ (.ofList pairs)).2.1 hfinite
  have hraw : (ofList pairs).raw = "7 Rust" := by
    have hderived := (hlist pairs).derived (by decide)
    rw [hderived]
    decide +kernel
  exact ⟨hnodup, hperm _ _ hnodup pairs.reverse_perm.symm, hraw, hback, hjson _ _ hback,
    hflat _ (by decide), by decide +kernel,
    (hmade nowhere (.ofList _)).2.2 "x" (0.0 / 0.0) (by decide +kernel) (by decide +kernel)⟩

end Row

end RowSearch

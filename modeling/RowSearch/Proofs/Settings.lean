import Mathlib.Data.List.Nodup
import Mathlib.Data.List.Perm.Subperm
import RowSearch.Config.Yaml
import RowSearch.Proofs.Digits
import RowSearch.Proofs.Lines
import RowSearch.Proofs.Outcome
/-!
# Settings that are written and read

Writing settings loses nothing: each setting has a line of its own, which names it and gives its value,
and each line is read as the setting it was written for. Reading sets one setting after the other,
starting from the standard ones, so the order of the lines does not matter, and neither does a missing
line if its setting is standard anyway. Only a limit of zero is written and not taken back.

Of the library that writes and reads the lines no more is asked than that it does so. The reader does: its
words and digits are read back as the values they were written for.
-/

namespace RowSearch

open Config (Setting)

namespace Yaml

/-! ### Scalars -/

theorem flagOf?_toString (value : Bool) : flagOf? (toString value).toList = some value := by
  cases value
  · rfl
  · rfl

theorem flagOf?_digits (n : Nat) : flagOf? (Number.digits n) = none := by
  have hletter : ∀ c ∈ Number.digitChars, c ≠ 't' ∧ c ≠ 'T' ∧ c ≠ 'f' ∧ c ≠ 'F' := by decide
  obtain ⟨c, rest, hdigits⟩ := List.exists_cons_of_ne_nil (Number.digits_ne_nil n)
  have hc : c ∈ Number.digits n := hdigits ▸ List.mem_cons_self
  simp [hdigits, flagOf?, ← String.toList_inj, hletter c (Number.mem_digitChars_of_digits c hc)]

theorem natOf?_digits (n : Nat) : natOf? 10 (Number.digits n) = some n := by
  have hdigit : ∀ c ∈ Number.digitChars,
      hexDigit? c = some (c.toNat - 48) ∧ c.toNat - 48 < 10 := by decide
  have hread : (Number.digits n).mapM hexDigit? = some ((Number.digits n).map (·.toNat - 48)) := by
    rw [mapM_eq_some, List.map_map]
    exact List.map_congr_left fun c hc => (hdigit c (Number.mem_digitChars_of_digits c hc)).1
  have hsmall : ((Number.digits n).map (·.toNat - 48)).all (· < 10) = true := by
    rw [List.all_map, List.all_eq_true]
    exact fun c hc => decide_eq_true (hdigit c (Number.mem_digitChars_of_digits c hc)).2
  have hvalue : ((Number.digits n).map (·.toNat - 48)).foldl (10 * · + ·) 0 = n := by
    rw [List.foldl_map]
    exact Number.ofDigits_digits n
  rw [natOf?, hread]
  show (if _ then _ else none) = _
  rw [if_pos ⟨Number.digits_ne_nil n, hsmall⟩, hvalue]

theorem wholeOf?_eq_natOf? {text : List Char} (h : text.head? ≠ some '0') :
    wholeOf? text = natOf? 10 text := by
  cases text with
  | nil => rfl
  | cons c text =>
    have hzero : c ≠ '0' := fun heq => h (congrArg some heq)
    simp [wholeOf?, hzero]

theorem wholeOf?_digits (n : Nat) : wholeOf? (Number.digits n) = some n := by
  rcases Nat.eq_zero_or_pos n with rfl | hpos
  · rfl
  · rw [wholeOf?_eq_natOf? (Number.head?_digits_ne hpos), natOf?_digits]

theorem wordOf?_eq_wholeOf? {text : List Char} (h : '+' ∉ text) :
    wordOf? text = (wholeOf? text).bind fun n =>
      if n < UInt64.size then some (UInt64.ofNat n) else none := by
  cases text with
  | nil => rfl
  | cons c text =>
    have hplus : c ≠ '+' := fun heq => h (heq ▸ List.mem_cons_self)
    simp [wordOf?, hplus]

theorem wordOf?_digits (value : UInt64) : wordOf? (Number.digits value.toNat) = some value := by
  have hplus : '+' ∉ Number.digits value.toNat :=
    fun hmem => absurd (Number.mem_digitChars_of_digits _ hmem) (by decide)
  rw [wordOf?_eq_wholeOf? hplus, wholeOf?_digits, Option.bind_some, if_pos value.toNat_lt_size,
    UInt64.ofNat_toNat]

theorem toList_text_whole (value : UInt64) :
    (Scalar.whole value).text.toList = Number.digits value.toNat := Nat.toList_repr

/-- A scalar is read as what it was written for. -/
theorem value?_text (scalar : Scalar) : (Node.plain scalar.text.toList).value? = some scalar := by
  cases scalar with
  | flag value =>
    have hflag : flagOf? (toString value).toList = some value := flagOf?_toString value
    simp [Scalar.text, Node.value?, hflag]
  | whole value =>
    rw [toList_text_whole, Node.value?, flagOf?_digits, wordOf?_digits]
    rfl

theorem isWord_text (scalar : Scalar) : IsWord scalar.text.toList := by
  cases scalar with
  | flag value => cases value <;> exact ⟨by decide, by decide⟩
  | whole value =>
    have hdigits : ∀ c ∈ Number.digitChars, c ∈ wordChars := by decide
    rw [toList_text_whole]
    exact ⟨Number.digits_ne_nil _, fun c hc => hdigits c (Number.mem_digitChars_of_digits c hc)⟩

/-! ### Fields -/

def entryOf (field : String × Scalar) : Entry :=
  (field.1.toList, field.2.text.toList)

theorem toList_written (field : String × Scalar) : (written field).toList = lineOf (entryOf field) := by
  simp [written, entryOf, lineOf]

theorem fieldOf?_entryOf (field : String × Scalar) :
    fieldOf? (Node.ofLine (entryOf field)) = some (field.1, some field.2) := by
  have hvalue : (Node.plain field.2.text.toList).value? = some field.2 := value?_text field.2
  simp [fieldOf?, Node.ofLine, entryOf, Node.scalar?, hvalue]

/-- Lines of words are read as the fields they were written for. -/
theorem read_lines {fields : List (String × Scalar)} (h : ∀ field ∈ fields, IsWord field.1.toList) :
    reader.read (String.join (fields.map written)) =
      some (fields.map fun field => (field.1, some field.2)) := by
  have htext : (String.join (fields.map written)).toList = (fields.map entryOf).flatMap lineOf := by
    rw [String.toList_join, List.flatMap_map, List.flatMap_map]
    exact List.flatMap_congr fun field _ => toList_written field
  have hfields : ((fields.map entryOf).map Node.ofLine).mapM fieldOf? =
      some (fields.map fun field => (field.1, some field.2)) := by
    rw [mapM_eq_some, List.map_map, List.map_map, List.map_map]
    exact List.map_congr_left fun field _ => fieldOf?_entryOf field
  have hlines : ∀ line ∈ fields.map entryOf, IsLine line := by
    intro line hline
    obtain ⟨field, hfield, rfl⟩ := List.mem_map.mp hline
    exact ⟨h field hfield, isWord_text field.2⟩
  show (document? _).bind fieldsOf? = _
  rw [htext]
  cases fields with
  | nil =>
    rw [List.map_nil, List.flatMap_nil, document?_nil]
    rfl
  | cons first fields =>
    rw [List.map_cons, document?_lines hlines]
    exact hfields

end Yaml

namespace Config

/-! ### Setting them -/

theorem Setting.isWord_name (setting : Setting) : Yaml.IsWord setting.name.toList := by
  cases setting with
  | caseSensitive value | extendedOperators value | maxDepth value | maxHeight value =>
    refine ⟨by simp [name], ?_⟩
    simp only [name]
    decide

/-- A field is read as the setting it was written for. -/
theorem settingOf?_field (setting : Setting) :
    settingOf? (setting.name, some setting.scalar) = some (some setting) := by
  cases setting <;> rfl

/-- The settings of a configuration have different names. -/
theorem nodup_names (config : Config) : (config.settings.map Setting.name).Nodup := by
  show ["case_sensitive", "extended_operators", "max_depth", "max_height"].Nodup
  decide

/-- What a setting sets is set to its value, and all else stays as it was. -/
theorem mem_settings_apply {config : Config} {setting other : Setting} :
    other ∈ (setting.apply config).settings ↔
      other = setting ∨ other.name ≠ setting.name ∧ other ∈ config.settings := by
  cases setting <;> cases other <;> simp [settings, Setting.apply, Setting.name]

/-- A configuration that has all settings of another one is that one. -/
theorem eq_of_settings_subset {config other : Config}
    (h : ∀ setting ∈ config.settings, setting ∈ other.settings) : other = config := by
  cases config
  cases other
  simp [settings] at h
  simp [h]

/-- Setting some of the settings of a configuration where all others are as they should be gives the
configuration, whatever the order. -/
theorem foldl_apply_eq {config : Config} {chosen : List Setting}
    (hchosen : ∀ setting ∈ chosen, setting ∈ config.settings) (start : Config)
    (hrest : ∀ setting ∈ config.settings, setting ∈ chosen ∨ setting ∈ start.settings) :
    chosen.foldl Setting.apply start = config := by
  induction chosen generalizing start with
  | nil =>
    exact eq_of_settings_subset fun setting hset => (hrest setting hset).resolve_left List.not_mem_nil
  | cons first chosen ih =>
    obtain ⟨hfirst, hchosen⟩ := List.forall_mem_cons.mp hchosen
    apply ih hchosen
    intro setting hset
    by_cases hsame : setting = first
    · exact .inr (mem_settings_apply.mpr (.inl hsame))
    · rcases hrest setting hset with hmem | hstart
      · exact .inl ((List.mem_cons.mp hmem).resolve_left hsame)
      · have hname : setting.name ≠ first.name := fun heq =>
          hsame (List.inj_on_of_nodup_map config.nodup_names hset hfirst heq)
        exact .inr (mem_settings_apply.mpr (.inr ⟨hname, hstart⟩))

/-! ### Reading what was written -/

def yamlOf (chosen : List Setting) : String :=
  String.join (chosen.map fun setting => Yaml.written setting.field)

end Config

/-- What settings ask of a library: it writes a line for each field, with its name and its value, and it
reads such lines, if their names are different, as the fields that they were written for. -/
structure Yaml.Library.Documented (library : Yaml.Library) : Prop where
  writes : ∀ config : Config,
    library.write (config.settings.map Setting.field) = Config.yamlOf config.settings
  reads : ∀ chosen : List Setting, (chosen.map Setting.name).Nodup →
    library.read (Config.yamlOf chosen) =
      some (chosen.map fun setting => (setting.name, some setting.scalar))

theorem Yaml.documented_reader : reader.Documented where
  writes config := by
    show String.join ((config.settings.map Setting.field).map written) = _
    rw [List.map_map]
    rfl
  reads chosen _ := by
    have hwords : ∀ field ∈ chosen.map Setting.field, IsWord field.1.toList :=
      List.forall_mem_map.mpr fun setting _ => setting.isWord_name
    have hread := read_lines hwords
    rw [List.map_map, List.map_map] at hread
    exact hread

namespace Config

/-- Some settings of a configuration, in any order, so that those that are left out have their standard
values. -/
structure Describes (chosen : List Setting) (config : Config) : Prop where
  /-- They are settings of the configuration, none of them twice. -/
  picked : chosen.Subperm config.settings
  omitted : ∀ setting ∈ config.settings, setting ∉ chosen → setting ∈ standard.settings

theorem Describes.nodup_names {chosen : List Setting} {config : Config} (h : Describes chosen config) :
    (chosen.map Setting.name).Nodup := by
  obtain ⟨kept, hperm, hsublist⟩ := h.picked
  exact (hperm.map Setting.name).nodup_iff.mp (config.nodup_names.sublist (hsublist.map _))

theorem describes_settings (config : Config) : Describes config.settings config where
  picked := List.Subperm.refl _
  omitted := fun _ hset hnot => absurd hset hnot

/-- The fields of some settings are read as the configuration they describe. -/
theorem ofFields?_eq {chosen : List Setting} {config : Config} (h : Describes chosen config) :
    ofFields? (chosen.map fun setting => (setting.name, some setting.scalar)) = some config := by
  have hread : (chosen.map fun setting => (setting.name, some setting.scalar)).mapM settingOf? =
      some (chosen.map some) := by
    rw [mapM_eq_some, List.map_map, List.map_map]
    exact List.map_congr_left fun setting _ => settingOf?_field setting
  have hconfig : chosen.foldl Setting.apply standard = config := by
    apply foldl_apply_eq (fun setting hset => h.picked.subset hset)
    intro setting hset
    by_cases hmem : setting ∈ chosen
    · exact .inl hmem
    · exact .inr (h.omitted setting hset hmem)
  rw [ofFields?, hread]
  simp [List.filterMap_map, h.nodup_names, hconfig]

/-- What a text is read as that was written for a configuration: the configuration, or the error about a
limit of zero, where the depth comes first. -/
structure ReadsAs (library : Yaml.Library) (text : String) (config : Config) : Prop where
  accepted : 0 < config.maxDepth → 0 < config.maxHeight → ofYaml text library = .ok config
  zeroDepth : config.maxDepth = 0 →
    ∃ e, ofYaml text library = .error e ∧ e.message = "max_depth must be greater than 0"
  zeroHeight : 0 < config.maxDepth → config.maxHeight = 0 →
    ∃ e, ofYaml text library = .error e ∧ e.message = "max_height must be greater than 0"

theorem readsAs_of_ofYaml {library : Yaml.Library} {text : String} {config : Config}
    (h : ofYaml text library = config.validate) : ReadsAs library text config where
  accepted hdepth hheight := by
    rw [h, validate, if_neg (UInt64.ne_of_lt hdepth).symm, if_neg (UInt64.ne_of_lt hheight).symm]
  zeroDepth hdepth := by
    refine ⟨.zeroDepth, ?_, rfl⟩
    rw [h, validate, if_pos hdepth]
  zeroHeight hdepth hheight := by
    refine ⟨.zeroHeight, ?_, rfl⟩
    rw [h, validate, if_neg (UInt64.ne_of_lt hdepth).symm, if_pos hheight]

/-- What a library writes for a configuration it reads as that configuration, unless a limit is zero. The
same is true of the lines in any other order, and without the lines of settings that have their standard
values. -/
structure RoundTrips (library : Yaml.Library) (config : Config) : Prop where
  written : ReadsAs library (config.toYaml library) config
  chosen : ∀ chosen, Describes chosen config → ReadsAs library (yamlOf chosen) config

theorem roundTrips_of_documented {library : Yaml.Library} (h : library.Documented) (config : Config) :
    RoundTrips library config := by
  have hlines (chosen : List Setting) (hchosen : Describes chosen config) :
      ReadsAs library (yamlOf chosen) config := by
    apply readsAs_of_ofYaml
    rw [ofYaml, h.reads chosen hchosen.nodup_names, Option.bind_some, ofFields?_eq hchosen]
  have hwritten : config.toYaml library = yamlOf config.settings := h.writes config
  refine ⟨?_, hlines⟩
  rw [hwritten]
  exact hlines config.settings (describes_settings config)

/-- Settings are read back as they were written, by the reader of this library and by every other one that
writes and reads lines as documented. -/
theorem toYaml_reads_back (config : Config) :
    RoundTrips Yaml.reader config ∧
      ∀ library : Yaml.Library, library.Documented → RoundTrips library config :=
  ⟨roundTrips_of_documented Yaml.documented_reader config,
    fun _ hlibrary => roundTrips_of_documented hlibrary config⟩

/-- Three lines in another order, the last of them with the largest limit there is, and one setting that
is left out. -/
theorem toYaml_reads_back_of_three_lines :
    Yaml.reader.Documented ∧
      Describes [.maxHeight 7, .caseSensitive true, .maxDepth 18446744073709551615]
        ⟨true, true, 18446744073709551615, 7⟩ ∧
      yamlOf [.maxHeight 7, .caseSensitive true, .maxDepth 18446744073709551615] =
        "max_height: 7\ncase_sensitive: true\nmax_depth: 18446744073709551615\n" ∧
      ofYaml (yamlOf [.maxHeight 7, .caseSensitive true, .maxDepth 18446744073709551615]) Yaml.reader =
        .ok ⟨true, true, 18446744073709551615, 7⟩ := by
  have hdescribes : Describes [.maxHeight 7, .caseSensitive true, .maxDepth 18446744073709551615]
      ⟨true, true, 18446744073709551615, 7⟩ := ⟨by decide, by decide⟩
  have hread := ((toYaml_reads_back ⟨true, true, 18446744073709551615, 7⟩).2 Yaml.reader
    Yaml.documented_reader).chosen _ hdescribes
  exact ⟨Yaml.documented_reader, hdescribes, by decide, hread.accepted (by decide) (by decide)⟩

end Config

end RowSearch

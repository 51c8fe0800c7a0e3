import PawnScope.Config.Setting
/-!
The configuration and its settings. A configuration is read back from what it is written to, and there are
other ways to write it (`Config.Alike`): with the keys in another order, with unknown keys, and without
the fields that have their defaults, in the object itself and in that of the compiler. Main result:
`Config.ofSetting?_faithful`.
-/

namespace PawnScope

namespace Setting

variable {α : Type} {fields fields' : List (Text × Setting)} {keys : List String} {key : String}
  {read : Setting → Option α} {default : α} {value : Setting}

/-! ## Values -/

theorem path?_ofPath (path : Path) : path? (ofPath path) = some path :=
  rfl

theorem text?_ofText (text : Text) : text? (ofText text) = some text :=
  rfl

theorem listOf?_ofList {write : α → Setting} (inverse : ∀ item, read (write item) = some item)
    (items : List α) : listOf? read (ofList write items) = some items := by
  rw [ofList, listOf?, List.mapM_map]
  induction items with
  | nil => rfl
  | cons item items ih => simp [List.mapM_cons, inverse, ih]

theorem optional?_ofOption {write : α → Setting} (inverse : ∀ value, read (write value) = some value)
    (filled : ∀ value, write value ≠ null) (value : Option α) :
    optional? read (ofOption write value) = some value := by
  cases value with
  | none => rfl
  | some value =>
    rw [ofOption, optional?, inverse]
    · rfl
    · exact filled value

/-! ## Fields -/

theorem fieldOr_cons_of_ne {other : Text} (apart : other ≠ key.toList) :
    fieldOr ((other, value) :: fields) key read default = fieldOr fields key read default := by
  rw [fieldOr, List.filter_cons_of_neg (by simpa using apart), fieldOr]

theorem filter_of_not_mem (missing : key.toList ∉ fields.map Prod.fst) :
    fields.filter (fun field => field.1 == key.toList) = [] := by
  refine List.filter_eq_nil_iff.mpr fun field member same => missing ?_
  exact beq_iff_eq.mp same ▸ List.mem_map_of_mem member

theorem fieldOr_of_not_mem (missing : key.toList ∉ fields.map Prod.fst) :
    fieldOr fields key read default = some default := by
  rw [fieldOr, filter_of_not_mem missing]

/-- A key that is written once. -/
theorem fieldOr_cons_self (once : key.toList ∉ fields.map Prod.fst) :
    fieldOr ((key.toList, value) :: fields) key read default = read value := by
  rw [fieldOr, List.filter_cons_of_pos (by simp), filter_of_not_mem once]

theorem fieldOr_perm (order : fields.Perm fields') :
    fieldOr fields key read default = fieldOr fields' key read default := by
  have order' := order.filter fun field => field.1 == key.toList
  rw [fieldOr, fieldOr]
  generalize fields.filter _ = found at order'
  generalize fields'.filter _ = found' at order'
  match found with
  | [] => rw [order'.nil_eq]
  | [field] => rw [order'.singleton_eq]
  | first :: second :: more =>
    have size := order'.length_eq
    match found' with
    | [] => cases size
    | [field] => cases size
    | first' :: second' :: more' => rfl

/--
Two ways to write the fields of a record with these keys. A field with its default says what the record
says without it; `nested` relates the values that are two ways to write the same.
-/
inductive Alike (keys : List String) (isDefault : Text → Setting → Prop)
    (nested : Text → Setting → Setting → Prop) :
    List (Text × Setting) → List (Text × Setting) → Prop where
  | permuted {fields fields' : List (Text × Setting)} (order : fields.Perm fields') :
      Alike keys isDefault nested fields fields'
  | unknown {key : Text} {value : Setting} {fields : List (Text × Setting)}
      (other : key ∉ keys.map String.toList) :
      Alike keys isDefault nested ((key, value) :: fields) fields
  | default {key : Text} {value : Setting} {fields : List (Text × Setting)}
      (idle : isDefault key value) (once : key ∉ fields.map Prod.fst) :
      Alike keys isDefault nested ((key, value) :: fields) fields
  | inside {key : Text} {value value' : Setting} {fields : List (Text × Setting)}
      (same : nested key value value') :
      Alike keys isDefault nested ((key, value) :: fields) ((key, value') :: fields)
  | symm {fields fields' : List (Text × Setting)} (alike : Alike keys isDefault nested fields fields') :
      Alike keys isDefault nested fields' fields
  | trans {fields between fields' : List (Text × Setting)}
      (alike : Alike keys isDefault nested fields between)
      (alike' : Alike keys isDefault nested between fields') :
      Alike keys isDefault nested fields fields'

variable {isDefault : Text → Setting → Prop} {nested : Text → Setting → Setting → Prop}

/-- The field under a key that is known, read with the default that may be left out. -/
theorem Alike.fieldOr_eq (alike : Alike keys isDefault nested fields fields') (known : key ∈ keys)
    (idle : ∀ value, isDefault key.toList value → read value = some default)
    (same : ∀ value value', nested key.toList value value' → read value = read value') :
    fieldOr fields key read default = fieldOr fields' key read default := by
  induction alike with
  | permuted order => exact fieldOr_perm order
  | unknown other =>
    refine fieldOr_cons_of_ne ?_
    rintro rfl
    exact other (List.mem_map_of_mem known)
  | @default key' value fields idle' once =>
    by_cases this : key' = key.toList
    · subst this
      rw [fieldOr_cons_self once, fieldOr_of_not_mem once, idle value idle']
    · exact fieldOr_cons_of_ne this
  | @inside key' value value' fields same' =>
    by_cases this : key' = key.toList
    · subst this
      rw [fieldOr, fieldOr, List.filter_cons_of_pos (by simp), List.filter_cons_of_pos (by simp)]
      cases fields.filter fun field => field.1 == key.toList with
      | nil => exact same value value' same'
      | cons field more => rfl
    · rw [fieldOr_cons_of_ne this, fieldOr_cons_of_ne this]
  | symm _ ih => exact ih.symm
  | trans _ _ ih ih' => exact ih.trans ih'

end Setting

/-! ## Places -/

namespace OutputPlace

theorem ofSetting?_toSetting (place : OutputPlace) : ofSetting? place.toSetting = some place := by
  cases place <;> decide +kernel

end OutputPlace

/-! ## The compiler -/

namespace CompilerConfig

variable {fields fields' : List (Text × Setting)} {config : CompilerConfig}

theorem ofFields?_eq_some_iff :
    ofFields? fields = some config ↔
      Setting.fieldOr fields "executablePath" Setting.path? empty.executable = some config.executable ∧
      Setting.fieldOr fields "options" (Setting.listOf? Setting.text?) empty.options =
        some config.options ∧
      Setting.fieldOr fields "includePaths" (Setting.listOf? Setting.path?) empty.includePaths =
        some config.includePaths ∧
      Setting.fieldOr fields "outputType" OutputPlace.ofSetting? empty.outputPlace =
        some config.outputPlace ∧
      Setting.fieldOr fields "outputPath" Setting.path? empty.outputPath = some config.outputPath := by
  obtain ⟨executable, options, includePaths, outputPlace, outputPath⟩ := config
  simp only [ofFields?, bind, Option.bind_eq_some_iff, pure, Option.some.injEq, mk.injEq]
  grind

/-- The value under the key is the default of that field. -/
def IsDefault (key : Text) (value : Setting) : Prop :=
  key = "executablePath".toList ∧ Setting.path? value = some empty.executable ∨
  key = "options".toList ∧ Setting.listOf? Setting.text? value = some empty.options ∨
  key = "includePaths".toList ∧ Setting.listOf? Setting.path? value = some empty.includePaths ∨
  key = "outputType".toList ∧ OutputPlace.ofSetting? value = some empty.outputPlace ∨
  key = "outputPath".toList ∧ Setting.path? value = some empty.outputPath

/-- Two ways to write the same. -/
def Alike : List (Text × Setting) → List (Text × Setting) → Prop :=
  Setting.Alike keys IsDefault fun _ _ _ => False

theorem ofFields?_of_alike (alike : Alike fields fields') : ofFields? fields = ofFields? fields' := by
  have same {α : Type} {key : String} {read : Setting → Option α} {default : α} (known : key ∈ keys)
      (idle : ∀ value, IsDefault key.toList value → read value = some default) :
      Setting.fieldOr fields key read default = Setting.fieldOr fields' key read default :=
    Setting.Alike.fieldOr_eq alike known idle nofun
  rw [ofFields?, ofFields?, same (by decide) fun _ => by simp [IsDefault],
    same (by decide) fun _ => by simp [IsDefault], same (by decide) fun _ => by simp [IsDefault],
    same (by decide) fun _ => by simp [IsDefault], same (by decide) fun _ => by simp [IsDefault]]

theorem ofSetting?_object (fields : List (Text × Setting)) :
    ofSetting? (.object fields) = ofFields? fields :=
  rfl

theorem ofSetting?_toSetting (config : CompilerConfig) : ofSetting? config.toSetting = some config := by
  rw [toSetting, ofSetting?_object, ofFields?_eq_some_iff]
  refine ⟨?_, ?_, ?_, ?_, ?_⟩
  · rfl
  · exact Setting.listOf?_ofList Setting.text?_ofText _
  · exact Setting.listOf?_ofList Setting.path?_ofPath _
  · exact OutputPlace.ofSetting?_toSetting _
  · rfl

end CompilerConfig

/-! ## The workspace -/

namespace Config

variable {fields fields' : List (Text × Setting)} {config : Config}

theorem ofFields?_eq_some_iff :
    ofFields? fields = some config ↔
      Setting.fieldOr fields "includePaths" (Setting.listOf? Setting.path?) default.includePaths =
        some config.includePaths ∧
      Setting.fieldOr fields "workspaceRoot" (Setting.optional? Setting.path?) default.workspaceRoot =
        some config.workspaceRoot ∧
      Setting.fieldOr fields "includeExtensions" (Setting.listOf? Setting.text?) default.extensions =
        some config.extensions ∧
      Setting.fieldOr fields "compiler" CompilerConfig.ofSetting? default.compiler =
        some config.compiler := by
  obtain ⟨includePaths, workspaceRoot, extensions, compiler⟩ := config
  simp only [ofFields?, bind, Option.bind_eq_some_iff, pure, Option.some.injEq, mk.injEq]
  grind

/-- The value under the key is the default of that field. -/
def IsDefault (key : Text) (value : Setting) : Prop :=
  key = "includePaths".toList ∧ Setting.listOf? Setting.path? value = some default.includePaths ∨
  key = "workspaceRoot".toList ∧ Setting.optional? Setting.path? value = some default.workspaceRoot ∨
  key = "includeExtensions".toList ∧ Setting.listOf? Setting.text? value = some default.extensions ∨
  key = "compiler".toList ∧ CompilerConfig.ofSetting? value = some default.compiler

/-- The settings of the compiler are written in an object of their own, which has its own keys. -/
def SameCompiler (key : Text) (value value' : Setting) : Prop :=
  key = "compiler".toList ∧ ∃ fields fields', CompilerConfig.Alike fields fields' ∧
    value = .object fields ∧ value' = .object fields'

/-- Two ways to write the same. -/
def Alike : List (Text × Setting) → List (Text × Setting) → Prop :=
  Setting.Alike keys IsDefault SameCompiler

theorem ofFields?_of_alike (alike : Alike fields fields') : ofFields? fields = ofFields? fields' := by
  have same {α : Type} {key : String} {read : Setting → Option α} {default : α} (known : key ∈ keys)
      (idle : ∀ value, IsDefault key.toList value → read value = some default)
      (inside : ∀ value value', SameCompiler key.toList value value' → read value = read value') :
      Setting.fieldOr fields key read default = Setting.fieldOr fields' key read default :=
    Setting.Alike.fieldOr_eq alike known idle inside
  have other {α : Type} {key : String} {read : Setting → Option α} (apart : key ≠ "compiler")
      (value value' : Setting) (inside : SameCompiler key.toList value value') :
      read value = read value' :=
    absurd (String.toList_injective inside.1) apart
  have compiler (value value' : Setting) (inside : SameCompiler "compiler".toList value value') :
      CompilerConfig.ofSetting? value = CompilerConfig.ofSetting? value' := by
    obtain ⟨-, inner, inner', alike', rfl, rfl⟩ := inside
    exact CompilerConfig.ofFields?_of_alike alike'
  rw [ofFields?, ofFields?, same (by decide) (fun _ => by simp [IsDefault]) (other (by decide)),
    same (by decide) (fun _ => by simp [IsDefault]) (other (by decide)),
    same (by decide) (fun _ => by simp [IsDefault]) (other (by decide)),
    same (by decide) (fun _ => by simp [IsDefault]) compiler]

theorem ofSetting?_object (fields : List (Text × Setting)) :
    ofSetting? (.object fields) = ofFields? fields :=
  rfl

theorem ofSetting?_toSetting (config : Config) : ofSetting? config.toSetting = some config := by
  rw [toSetting, ofSetting?_object, ofFields?_eq_some_iff]
  refine ⟨?_, ?_, ?_, ?_⟩
  · exact Setting.listOf?_ofList Setting.path?_ofPath _
  · exact Setting.optional?_ofOption Setting.path?_ofPath (fun _ => Setting.noConfusion) _
  · exact Setting.listOf?_ofList Setting.text?_ofText _
  · exact CompilerConfig.ofSetting?_toSetting _

/--
A configuration is read back from the settings that it is written to. The same is read from an object,
valid or not, whichever way it is written. And what is read from any settings is read again once it has
been written.
-/
theorem ofSetting?_faithful :
    (∀ config : Config, ofSetting? config.toSetting = some config) ∧
    (∀ fields fields', Alike fields fields' →
      ofSetting? (.object fields) = ofSetting? (.object fields')) ∧
    ∀ setting, (ofSetting? setting).bind (fun config => ofSetting? config.toSetting) =
      ofSetting? setting := by
  refine ⟨ofSetting?_toSetting, fun fields fields' alike => ofFields?_of_alike alike, fun setting => ?_⟩
  cases ofSetting? setting with
  | none => rfl
  | some config => exact ofSetting?_toSetting config

/-- Unknown keys and defaults in both objects, and the known keys in another order. -/
theorem ofSetting?_faithful_mixed :
    let place := ("outputType".toList, Setting.text "source".toList)
    let paths := ("includePaths".toList, Setting.list [.text "inc".toList])
    let plain := [("compiler".toList, Setting.object [place]), paths]
    let mixed := [("editor".toList, .flag true), ("workspaceRoot".toList, .null), paths,
      ("compiler".toList, .object [("tabs".toList, .number 4), ("options".toList, .list []), place])]
    Alike mixed plain ∧ ofSetting? (.object mixed) = ofSetting? (.object plain) ∧
      ofSetting? (.object plain) = some ⟨[⟨"inc".toList⟩], none, ["inc".toList],
        ⟨⟨[]⟩, [], [], .besideSource, ⟨[]⟩⟩⟩ := by
  intro place paths plain mixed
  have compiler : CompilerConfig.Alike
      [("tabs".toList, .number 4), ("options".toList, .list []), place] [place] :=
    .trans (.unknown (by decide)) (.default (.inr (.inl ⟨rfl, rfl⟩)) (by decide))
  have alike : Alike mixed plain :=
    .trans (.unknown (by decide)) <| .trans (.default (.inr (.inl ⟨rfl, rfl⟩)) (by decide)) <|
      .trans (.permuted (.swap _ _ _)) (.inside ⟨rfl, _, _, compiler, rfl, rfl⟩)
  exact ⟨alike, ofSetting?_faithful.2.1 mixed plain alike, by decide +kernel⟩

end Config

end PawnScope

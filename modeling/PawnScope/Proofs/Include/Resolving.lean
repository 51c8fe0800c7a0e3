import PawnScope.Identifier.European
import PawnScope.Proofs.Workspace.Isolation
/-!
What an inclusion is resolved to. The search asks for each candidate as it is written, the id of the
found file is folded, and the file is read at the path of that id: over a store whose keys are folded the
three agree, as what the store holds at a path depends on its components alone (`text?_congr`,
`read_ofPath`). Main result: `resolve_loads`.
-/

namespace PawnScope

variable {store : FileStore} {path other added : Path} {text : Text}

/-! ## Stores -/

namespace FileStore

/-- Folding changes no key into another path. -/
def Folded (store : FileStore) : Prop :=
  ∀ entry ∈ store.entries, (SourceId.ofPath entry.1).toPath.sameAs entry.1 = true

instance (store : FileStore) : Decidable store.Folded :=
  inferInstanceAs (Decidable (∀ entry ∈ store.entries,
    (SourceId.ofPath entry.1).toPath.sameAs entry.1 = true))

/-- What a store holds at a path depends on its components alone. -/
theorem text?_congr (same : path.components = other.components) :
    store.text? path = store.text? other := by
  rw [text?, text?]
  simp only [Path.sameAs, same]

theorem contains_iff_text? : store.contains path = true ↔ ∃ text, store.text? path = some text :=
  Option.isSome_iff_exists

theorem contains_iff :
    store.contains path = true ↔ ∃ entry ∈ store.entries, entry.1.components = path.components := by
  rw [contains, text?, Option.isSome_map, List.find?_isSome]
  simp only [Path.sameAs, beq_iff_eq]

theorem contains_insert (store : FileStore) (added : Path) (text : Text) (path : Path) :
    (store.insert added text).contains path = (added.sameAs path || store.contains path) := by
  rw [Bool.eq_iff_iff, Bool.or_eq_true, contains_iff, contains_iff, Path.sameAs, beq_iff_eq]
  constructor
  · rintro ⟨entry, member, same⟩
    rcases List.mem_cons.mp member with rfl | kept
    · exact .inl same
    · exact .inr ⟨entry, List.mem_of_mem_filter kept, same⟩
  · rintro (same | ⟨entry, member, same⟩)
    · exact ⟨(added, text), List.mem_cons_self, same⟩
    · by_cases replaced : entry.1.components = added.components
      · exact ⟨(added, text), List.mem_cons_self, replaced.symm.trans same⟩
      · refine ⟨entry, List.mem_cons_of_mem _ (List.mem_filter.mpr ⟨member, ?_⟩), same⟩
        rw [Path.sameAs, Bool.not_eq_true', beq_eq_false_iff_ne]
        exact replaced

/-- What a store of folded keys holds at a path can be read under the id of the path. -/
theorem read_ofPath (folded : store.Folded) (held : store.text? path = some text) :
    store.read (SourceId.ofPath path).toPath = .ok text := by
  obtain ⟨entry, member, same⟩ := contains_iff.mp (contains_iff_text?.mpr ⟨text, held⟩)
  have key : (SourceId.ofPath entry.1).toPath.components = entry.1.components :=
    beq_iff_eq.mp (folded entry member)
  rw [read, ← SourceId.ofPath_congr same, text?_congr (key.trans same), held]

end FileStore

/-! ## Candidates -/

/--
A place in a search: the directory and the name that are tried there, the directories before that
directory, and the names before that name.
-/
structure Place where
  passed : List Path
  directory : Path
  tried : List Text
  name : Text

namespace Place

/-- The candidate at a place. -/
def candidate (place : Place) : Path :=
  place.directory.join ⟨place.name⟩

/-- The candidates before a place: all names in the directories before, and the names before in its own. -/
def earlier (place : Place) (names : List Text) : List Path :=
  place.passed.flatMap (fun directory => names.map fun name => directory.join ⟨name⟩) ++
    place.tried.map fun name => place.directory.join ⟨name⟩

/-- The search for an inclusion comes to the place. -/
structure IsOf (place : Place) (search : SearchPath) (inclusion : Inclusion) (includer : SourceId) :
    Prop where
  directories : place.passed ++ [place.directory] <+: search.directoriesFor inclusion includer.toPath
  names : place.tried ++ [place.name] <+: search.names inclusion.filename

end Place

theorem exists_place {directories : List Path} {names : List Text} {early late : List Path}
    (cut : (directories.flatMap fun directory => names.map fun name => directory.join ⟨name⟩) =
      early ++ path :: late) :
    ∃ place : Place, place.passed ++ [place.directory] <+: directories ∧
      place.tried ++ [place.name] <+: names ∧ place.candidate = path ∧ place.earlier names = early := by
  induction directories generalizing early with
  | nil => simp at cut
  | cons directory directories ih =>
    have later {early : List Path}
        (cut : (directories.flatMap fun directory => names.map fun name => directory.join ⟨name⟩) =
          early ++ path :: late) :
        ∃ place : Place, place.passed ++ [place.directory] <+: directory :: directories ∧
          place.tried ++ [place.name] <+: names ∧ place.candidate = path ∧
          place.earlier names = names.map (fun name => directory.join ⟨name⟩) ++ early := by
      obtain ⟨place, inside, names, same, rfl⟩ := ih cut
      refine ⟨{ place with passed := directory :: place.passed }, ?_, names, same, ?_⟩
      · exact List.cons_prefix_cons.mpr ⟨rfl, inside⟩
      · simp [Place.earlier]
    rw [List.flatMap_cons] at cut
    rcases List.append_eq_append_iff.mp cut with ⟨early', rfl, below⟩ | ⟨here, names_eq, below⟩
    · exact later below
    · cases here with
      | nil =>
        have rest : (directories.flatMap fun directory => names.map fun name => directory.join ⟨name⟩) =
            [] ++ path :: late := below.symm
        obtain ⟨place, inside, names, same, before⟩ := later rest
        exact ⟨place, inside, names, same, by rw [before, names_eq]; simp⟩
      | cons first here =>
        obtain ⟨rfl, -⟩ := List.cons.inj below
        obtain ⟨tried, rest, rfl, rfl, cut'⟩ := List.map_eq_append_iff.mp names_eq
        obtain ⟨name, rest, rfl, same, -⟩ := List.map_eq_cons_iff.mp cut'
        refine ⟨⟨[], directory, tried, name⟩, ⟨directories, rfl⟩, ⟨rest, by simp⟩, same, rfl⟩

namespace SearchPath

variable {search : SearchPath} {inclusion : Inclusion} {includer : SourceId} {found : FoundInclusion}

theorem resolve_eq_ok_iff :
    search.resolve store inclusion includer = .ok found ↔
      ∃ path, (search.candidates inclusion includer).find? store.contains = some path ∧
        found = ⟨inclusion, .ofPath path⟩ := by
  rw [resolve]
  cases (search.candidates inclusion includer).find? store.contains with
  | none => simp
  | some path => simp [eq_comm]

/-- What is found is the first candidate that the store holds. -/
theorem resolve_place (resolved : search.resolve store inclusion includer = .ok found) :
    ∃ place : Place, place.IsOf search inclusion includer ∧
      (∃ late, search.candidates inclusion includer =
        place.earlier (search.names inclusion.filename) ++ place.candidate :: late) ∧
      (∀ other ∈ place.earlier (search.names inclusion.filename), store.contains other = false) ∧
      store.contains place.candidate = true ∧ found = ⟨inclusion, .ofPath place.candidate⟩ := by
  obtain ⟨path, first, rfl⟩ := resolve_eq_ok_iff.mp resolved
  obtain ⟨held, early, late, cut, absent⟩ := List.find?_eq_some_iff_append.mp first
  obtain ⟨place, directories, names, rfl, rfl⟩ := exists_place cut
  exact ⟨place, ⟨directories, names⟩, ⟨late, cut⟩, fun other member => by simpa using absent other member,
    held, rfl⟩

/-- A path that is added to the store is found instead only where an earlier candidate is the same path. -/
theorem resolve_insert {early late : List Path}
    (cut : search.candidates inclusion includer = early ++ path :: late)
    (absent : ∀ other ∈ early, store.contains other = false) (held : store.contains path = true)
    (added : Path) (text : Text) :
    ∃ found, search.resolve (store.insert added text) inclusion includer = .ok found ∧
      ((∀ other ∈ early, added.sameAs other = false) → found = ⟨inclusion, .ofPath path⟩) ∧
      ((∃ other ∈ early, added.sameAs other = true) → found = ⟨inclusion, .ofPath added⟩) := by
  have stays : (store.insert added text).contains path = true := by
    rw [FileStore.contains_insert, held, Bool.or_true]
  cases shadow : early.find? (store.insert added text).contains with
  | none =>
    refine ⟨⟨inclusion, .ofPath path⟩, resolve_eq_ok_iff.mpr ⟨path, ?_, rfl⟩, fun _ => rfl, ?_⟩
    · rw [cut, List.find?_append, shadow, List.find?_cons_of_pos stays]
      rfl
    · rintro ⟨other, member, same⟩
      have missing := List.find?_eq_none.mp shadow other member
      rw [FileStore.contains_insert, same, Bool.true_or] at missing
      exact absurd rfl missing
  | some other =>
    have member := List.mem_of_find?_eq_some shadow
    have same : added.sameAs other = true := by
      have known := List.find?_some shadow
      rwa [FileStore.contains_insert, absent other member, Bool.or_false] at known
    refine ⟨⟨inclusion, .ofPath other⟩, resolve_eq_ok_iff.mpr ⟨other, ?_, rfl⟩, fun free => ?_, fun _ => ?_⟩
    · rw [cut, List.find?_append, shadow]
      rfl
    · exact absurd (free other member) (by simp [same])
    · rw [SourceId.ofPath_congr (beq_iff_eq.mp same)]

end SearchPath

/-! ## Nodes of what is found -/

namespace FileRecord

variable {record : FileRecord} {graph : IncludeGraph} {found : FoundInclusion}

theorem Tied.exists_edge (tied : record.Tied graph) (listed : found ∈ record.inclusions) :
    ∃ handle ∈ record.dependencies, graph.file? handle = some found.target := by
  have target : found.target ∈ record.targets := by
    rw [targets, List.mem_eraseDups]
    exact List.mem_map_of_mem listed
  have named : some found.target ∈ record.dependencies.map graph.file? :=
    tied ▸ List.mem_map_of_mem target
  exact List.mem_map.mp named

end FileRecord

namespace Workspace

variable {workspace : Workspace} {record : FileRecord} {inclusion : Inclusion} {includer : SourceId}
  {found : FoundInclusion} {owed : List Handle}

/-- The record is that of an open document or of a node. -/
def Uses (workspace : Workspace) (record : FileRecord) : Prop :=
  (∃ file document, workspace.documents.get? file = some document ∧ document.record = record) ∨
    ∃ handle, workspace.records.get? handle = some record

/-- An edge of the record leads to a node of exactly the found id, and the id to that node. -/
def Keyed (workspace : Workspace) (record : FileRecord) (found : FoundInclusion) : Prop :=
  ∃ handle ∈ record.dependencies, workspace.graph.file? handle = some found.target ∧
    workspace.nodeOf? found.target = some handle

theorem Uses.keyed (uses : workspace.Uses record) (sound : Sound workspace owed)
    (spelled : Spelled workspace) (listed : found ∈ record.inclusions) :
    workspace.Keyed record found := by
  have tied : record.Tied workspace.graph := by
    rcases uses with ⟨file, document, opened, rfl⟩ | ⟨handle, stored⟩
    · exact sound.documents_tied _ (Table.mem_of_get? opened)
    · exact sound.record_tied stored
  obtain ⟨handle, edge, named⟩ := tied.exists_edge listed
  refine ⟨handle, edge, named, (spelled.nodeOf?_eq_some_iff sound).mpr ?_⟩
  rw [spelled _ _ named, named]

theorem perform_search [Alphabets] (sound : Sound workspace []) (action : Action) :
    (workspace.perform action).search = workspace.search :=
  @perform_keeps workspace _ (fun after => after.search = workspace.search) rfl
    (fun file text => (openWith_changes sound file text).search)
    (fun _ _ closed => (close_changes sound closed).2.search) (fun _ => rfl) action

theorem run_search [Alphabets] (settled : Settled workspace) (actions : List Action) :
    (workspace.run actions).search = workspace.search := by
  induction actions generalizing workspace with
  | nil => rfl
  | cons action rest ih =>
    exact (ih (perform_settled settled action)).trans (perform_search settled.sound action)

/-- A document that is opened has the node of what its inclusions are resolved to. -/
theorem openWith_keyed [Alphabets] (sound : Sound workspace []) (spelled : Spelled workspace)
    (resolved : workspace.search.resolve workspace.files inclusion includer = .ok found)
    (named : inclusion ∈ (Outline.ofText includer text false).inclusions) :
    ∃ document, (workspace.openWith includer text).documents.get? includer = some document ∧
      (workspace.openWith includer text).Keyed document.record found := by
  obtain ⟨record, documents, outline⟩ := openWith_documents sound includer text
  have opened : (workspace.openWith includer text).documents.get? includer =
      some ⟨.ofText text, record⟩ := by rw [documents, Table.get?_insert_self]
  have listed : found ∈ record.unlinked.inclusions := by
    rw [outline]
    exact List.mem_filterMap.mpr ⟨inclusion, named, by rw [resolved]; rfl⟩
  have changes := openWith_changes sound includer text
  have uses : (workspace.openWith includer text).Uses record := .inl ⟨_, _, opened, rfl⟩
  exact ⟨_, opened, uses.keyed changes.sound (changes.spelled spelled) listed⟩

/--
Over a store of folded keys, what an inclusion is resolved to is the first candidate that the store
holds. Its text is read under the found id, which is a normal form. After any run, opening the includer
gives it a node of exactly this id, and so has every record that has found the inclusion. If a path is
added to the store, the inclusion is still resolved, to the same id unless the path is that of an earlier
candidate, and then to the id of the path.
-/
theorem resolve_loads [Alphabets] (config : Config) (store : FileStore) (folded : store.Folded)
    (inclusion : Inclusion) (includer : SourceId) (found : FoundInclusion)
    (resolved : (SearchPath.ofConfig config).resolve store inclusion includer = .ok found) :
    ∃ place : Place, place.IsOf (.ofConfig config) inclusion includer ∧
      (∀ other ∈ place.earlier ((SearchPath.ofConfig config).names inclusion.filename),
        store.contains other = false) ∧
      found = ⟨inclusion, .ofPath place.candidate⟩ ∧
      (∃ text, store.text? place.candidate = some text ∧
        store.read found.target.toPath = .ok text) ∧
      found.target.normal = found.target ∧
      (∀ files actions text, ((start config files).run actions).files = store →
        inclusion ∈ (Outline.ofText includer text false).inclusions →
        ∃ document, (((start config files).run actions).openWith includer text).documents.get? includer =
            some document ∧
          (((start config files).run actions).openWith includer text).Keyed document.record found) ∧
      (∀ files actions record, ((start config files).run actions).Uses record →
        found ∈ record.inclusions → ((start config files).run actions).Keyed record found) ∧
      ∀ added text, ∃ found', (SearchPath.ofConfig config).resolve (store.insert added text) inclusion
          includer = .ok found' ∧
        ((∀ other ∈ place.earlier ((SearchPath.ofConfig config).names inclusion.filename),
          added.sameAs other = false) → found' = found) ∧
        ((∃ other ∈ place.earlier ((SearchPath.ofConfig config).names inclusion.filename),
          added.sameAs other = true) → found' = ⟨inclusion, .ofPath added⟩) := by
  obtain ⟨place, isOf, ⟨late, cut⟩, absent, held, rfl⟩ := SearchPath.resolve_place resolved
  obtain ⟨text, stored⟩ := FileStore.contains_iff_text?.mp held
  have sound (files : FileStore) (actions : List Action) : Sound ((start config files).run actions) [] :=
    (run_settled (start_settled config files) actions).sound
  have spelled (files : FileStore) (actions : List Action) : Spelled ((start config files).run actions) :=
    run_spelled (start_settled config files) (start_spelled config files)
  refine ⟨place, isOf, absent, rfl, ⟨text, stored, FileStore.read_ofPath folded stored⟩,
    SourceId.normal_ofPath _, fun files actions text same named => ?_,
    fun files actions record uses listed => uses.keyed (sound files actions) (spelled files actions) listed,
    SearchPath.resolve_insert cut absent held⟩
  refine openWith_keyed (sound files actions) (spelled files actions) ?_ named
  rw [run_search (start_settled config files), same]
  exact resolved

/-- A file in a configured directory, which is searched behind that of the includer. -/
def laterDirectory : FileStore :=
  ⟨[(⟨"/srv/include/x.inc".toList⟩, "native x();".toList)]⟩

def laterConfig : Config :=
  { Config.default with
    includePaths := [⟨"${workspaceRoot}/include".toList⟩]
    workspaceRoot := some ⟨"/srv".toList⟩ }

/-- The inclusion `"./x"`. -/
def dotted : Inclusion :=
  ⟨"./x".toList, true, false, ⟨⟨0, 0⟩, ⟨0, 14⟩⟩⟩

open scoped Identifier.European

/-- A directory that is searched later holds the file, and one is found whatever is added. -/
theorem resolve_loads_later :
    laterDirectory.Folded ∧
    (SearchPath.ofConfig laterConfig).resolve laterDirectory dotted ⟨"file:///srv/a.sma".toList⟩ =
      .ok ⟨dotted, ⟨"/srv/include/x.inc".toList⟩⟩ ∧
    (∃ text, laterDirectory.read (SourceId.mk "/srv/include/x.inc".toList).toPath = .ok text) ∧
    ∀ added text, ∃ found, (SearchPath.ofConfig laterConfig).resolve (laterDirectory.insert added text)
      dotted ⟨"file:///srv/a.sma".toList⟩ = .ok found := by
  have folded : laterDirectory.Folded := by decide
  have resolved : (SearchPath.ofConfig laterConfig).resolve laterDirectory dotted
      ⟨"file:///srv/a.sma".toList⟩ = .ok ⟨dotted, ⟨"/srv/include/x.inc".toList⟩⟩ := by rfl
  obtain ⟨_, -, -, -, ⟨text, -, read⟩, -, -, -, grown⟩ := resolve_loads _ _ folded _ _ _ resolved
  exact ⟨folded, resolved, ⟨text, read⟩, fun added text => (grown added text).imp fun _ both => both.1⟩

/-- Under a key that is not folded a file is found, but not at the path of the found id. -/
example : (SearchPath.resolve ⟨[⟨[]⟩], none, []⟩ ⟨[(⟨"../../x.inc".toList⟩, [])]⟩
      ⟨"../../x.inc".toList, false, false, ⟨⟨0, 0⟩, ⟨0, 0⟩⟩⟩ ⟨[]⟩).toOption.map
        (fun found => (found.target,
          FileStore.contains ⟨[(⟨"../../x.inc".toList⟩, [])]⟩ found.target.toPath)) =
    some (⟨"x.inc".toList⟩, false) := by
  rfl

end Workspace

end PawnScope

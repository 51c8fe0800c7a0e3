import PawnScope.Proofs.Workspace.Run
/-!
Loading without a bound on how deep inclusions are followed. `Linking` and `Loading` are the recursion
that links a record and loads the files it includes; a derivation is a run of it that ends, and lists
the files in the order in which they are loaded. It ends since each of them had no node before and
has one from then on, and since only files of the store are ever included. Main results:
`link_linking`, that the bounded recursion ends the way the unbounded one does once the bound covers
the files without a node, and `run_loads_once`, that every step of a run ends in one way, which loads
no file twice.
-/

namespace PawnScope.Workspace

variable {workspace : Workspace} {old : List Handle} {targets : List SourceId} {file : SourceId}
  {text : Text} {skipStatic : Bool} {handle : Handle}

/-! ## The recursion -/

section Recursion

variable [Alphabets]

/-- A workspace in whose graph a file has one reference more. -/
def retaining (workspace : Workspace) (file : SourceId) : Workspace :=
  { workspace with graph := (workspace.graph.retain file).graph }

mutual

/-- Linking to `targets` ends, and the files `entered` are loaded on the way. -/
inductive Linking :
    List Handle → Workspace → List SourceId → Linked → List SourceId → Prop where
  | done {old : List Handle} {workspace : Workspace} : Linking old workspace [] ⟨workspace, []⟩ []
  | keep {old : List Handle} {workspace : Workspace} {target : SourceId} {handle : Handle}
      {rest entered : List SourceId} {linked : Linked} :
      workspace.edgeTo? old target = some handle → Linking old workspace rest linked entered →
      Linking old workspace (target :: rest) ⟨linked.workspace, handle :: linked.edges⟩ entered
  | share {old : List Handle} {workspace : Workspace} {target : SourceId}
      {rest entered : List SourceId} {linked : Linked} :
      workspace.edgeTo? old target = none → (workspace.graph.retain target).isNew = false →
      Linking old (workspace.retaining target) rest linked entered →
      Linking old workspace (target :: rest)
        ⟨linked.workspace, (workspace.graph.retain target).handle :: linked.edges⟩ entered
  | fetch {old : List Handle} {workspace loaded : Workspace} {target : SourceId}
      {rest below entered : List SourceId} {linked : Linked} :
      workspace.edgeTo? old target = none → (workspace.graph.retain target).isNew = true →
      Loading (workspace.retaining target) (workspace.graph.retain target).handle target loaded
        below →
      Linking old loaded rest linked entered →
      Linking old workspace (target :: rest)
        ⟨linked.workspace, (workspace.graph.retain target).handle :: linked.edges⟩
        (target :: below ++ entered)

/-- Loading the file of a node ends, and the files `below` are loaded on the way. -/
inductive Loading : Workspace → Handle → SourceId → Workspace → List SourceId → Prop where
  | unreadable {workspace : Workspace} {handle : Handle} {file : SourceId} :
      workspace.currentText? file = none → Loading workspace handle file workspace []
  | read {workspace : Workspace} {handle : Handle} {file : SourceId} {text : Text}
      {linked : Linked} {below : List SourceId} :
      workspace.currentText? file = some text →
      Linking [] workspace (workspace.outlineRecord file text true).targets linked below →
      Loading workspace handle file
        { linked.workspace with
          records := linked.workspace.records.insert handle
            ((workspace.outlineRecord file text true).linkedTo linked.edges) }
        below

end

/-! ## Steps -/

/-- Building a record ends. -/
inductive Building (workspace : Workspace) (file : SourceId) (text : Text) (skipStatic : Bool)
    (old : List Handle) : Built → List SourceId → Prop where
  | built {linked : Linked} {entered : List SourceId} :
      Linking old workspace (workspace.outlineRecord file text skipStatic).targets linked entered →
      Building workspace file text skipStatic old
        ⟨linked.workspace, (workspace.outlineRecord file text skipStatic).linkedTo linked.edges,
          old.filter (!linked.edges.contains ·)⟩
        entered

/-- Bringing the node of a file up to date ends. -/
inductive Refreshing (workspace : Workspace) (file : SourceId) (text : Text) :
    Refreshed → List SourceId → Prop where
  | absent :
      (workspace.nodeOf? file).bind workspace.graph.node? = none →
      Refreshing workspace file text ⟨workspace, []⟩ []
  | rebuilt {handle : Handle} {node : Node} {built : Built} {entered : List SourceId} :
      workspace.nodeOf? file = some handle → workspace.graph.node? handle = some node →
      Building workspace node.file text true (workspace.records.edges handle) built entered →
      Refreshing workspace file text
        ⟨{ built.workspace with records := built.workspace.records.insert handle built.record },
          built.dropped⟩
        entered

/-- Giving a document a text ends. -/
inductive Opening (workspace : Workspace) (file : SourceId) (text : Text) :
    Workspace → List SourceId → Prop where
  | opened {built : Built} {refreshed : Refreshed} {entered entered' : List SourceId} :
      Building workspace file text false (workspace.documentEdges file) built entered →
      Refreshing (built.placed file text) file text refreshed entered' →
      Opening workspace file text
        ((refreshed.workspace.release built.dropped).release refreshed.dropped)
        (entered ++ entered')

/-- Closing a document ends. -/
inductive Closing (workspace : Workspace) (file : SourceId) : Workspace → List SourceId → Prop where
  | gone :
      (workspace.left file).currentText? file = none →
      Closing workspace file (workspace.left file) []
  | settled {text : Text} {refreshed : Refreshed} {entered : List SourceId} :
      (workspace.left file).currentText? file = some text →
      Refreshing (workspace.left file) file text refreshed entered →
      Closing workspace file (refreshed.workspace.release refreshed.dropped) entered

/-- An action ends. -/
inductive Performing (workspace : Workspace) : Action → Workspace → List SourceId → Prop where
  | openWith {file : SourceId} {text : Text} {after : Workspace} {entered : List SourceId} :
      Opening workspace file text after entered →
      Performing workspace (.openWith file text) after entered
  | edit {file : SourceId} {text : Text} {after : Workspace} {entered : List SourceId} :
      workspace.isOpen file = true → Opening workspace file text after entered →
      Performing workspace (.edit file text) after entered
  | editUnknown {file : SourceId} {text : Text} :
      workspace.isOpen file = false → Performing workspace (.edit file text) workspace []
  | close {file : SourceId} {after : Workspace} {entered : List SourceId} :
      workspace.isOpen file = true → Closing workspace file after entered →
      Performing workspace (.close file) after entered
  | closeUnknown {file : SourceId} :
      workspace.isOpen file = false → Performing workspace (.close file) workspace []
  | write {path : Path} {text : Text} :
      Performing workspace (.write path text) (workspace.perform (.write path text)) []
  | delete {path : Path} :
      Performing workspace (.delete path) (workspace.perform (.delete path)) []

/-! ## There is one way to end -/

mutual

theorem Linking.unique {old : List Handle} {workspace : Workspace} {targets : List SourceId}
    {linked linked' : Linked} {entered entered' : List SourceId} :
    Linking old workspace targets linked entered →
    Linking old workspace targets linked' entered' → linked = linked' ∧ entered = entered'
  | .done, .done => ⟨rfl, rfl⟩
  | .keep found rest, .keep found' rest' => by
    cases found.symm.trans found'
    obtain ⟨rfl, rfl⟩ := rest.unique rest'
    exact ⟨rfl, rfl⟩
  | .share _ _ rest, .share _ _ rest' => by
    obtain ⟨rfl, rfl⟩ := rest.unique rest'
    exact ⟨rfl, rfl⟩
  | .fetch _ _ loading rest, .fetch _ _ loading' rest' => by
    obtain ⟨rfl, rfl⟩ := loading.unique loading'
    obtain ⟨rfl, rfl⟩ := rest.unique rest'
    exact ⟨rfl, rfl⟩
  | .keep found _, .share absent _ _ => nomatch found.symm.trans absent
  | .keep found _, .fetch absent _ _ _ => nomatch found.symm.trans absent
  | .share absent _ _, .keep found _ => nomatch found.symm.trans absent
  | .share _ known _, .fetch _ new _ _ => nomatch known.symm.trans new
  | .fetch absent _ _ _, .keep found _ => nomatch found.symm.trans absent
  | .fetch _ new _ _, .share _ known _ => nomatch known.symm.trans new

theorem Loading.unique {workspace after after' : Workspace} {handle : Handle} {file : SourceId}
    {below below' : List SourceId} :
    Loading workspace handle file after below →
    Loading workspace handle file after' below' → after = after' ∧ below = below'
  | .unreadable _, .unreadable _ => ⟨rfl, rfl⟩
  | .read text linking, .read text' linking' => by
    cases text.symm.trans text'
    obtain ⟨rfl, rfl⟩ := linking.unique linking'
    exact ⟨rfl, rfl⟩
  | .unreadable missing, .read text _ => nomatch missing.symm.trans text
  | .read text _, .unreadable missing => nomatch missing.symm.trans text

end

theorem Building.unique {built built' : Built} {entered entered' : List SourceId}
    (one : Building workspace file text skipStatic old built entered)
    (two : Building workspace file text skipStatic old built' entered') :
    built = built' ∧ entered = entered' := by
  obtain ⟨linking⟩ := one
  obtain ⟨linking'⟩ := two
  obtain ⟨rfl, rfl⟩ := linking.unique linking'
  exact ⟨rfl, rfl⟩

theorem Refreshing.unique {refreshed refreshed' : Refreshed} {entered entered' : List SourceId}
    (one : Refreshing workspace file text refreshed entered)
    (two : Refreshing workspace file text refreshed' entered') :
    refreshed = refreshed' ∧ entered = entered' := by
  cases one with
  | absent missing =>
    cases two with
    | absent _ => exact ⟨rfl, rfl⟩
    | rebuilt found named _ => simp [found, named] at missing
  | rebuilt found named building =>
    cases two with
    | absent missing => simp [found, named] at missing
    | rebuilt found' named' building' =>
      cases found.symm.trans found'
      cases named.symm.trans named'
      obtain ⟨rfl, rfl⟩ := building.unique building'
      exact ⟨rfl, rfl⟩

theorem Opening.unique {after after' : Workspace} {entered entered' : List SourceId}
    (one : Opening workspace file text after entered)
    (two : Opening workspace file text after' entered') : after = after' ∧ entered = entered' := by
  obtain ⟨building, refreshing⟩ := one
  obtain ⟨building', refreshing'⟩ := two
  obtain ⟨rfl, rfl⟩ := building.unique building'
  obtain ⟨rfl, rfl⟩ := refreshing.unique refreshing'
  exact ⟨rfl, rfl⟩

theorem Closing.unique {after after' : Workspace} {entered entered' : List SourceId}
    (one : Closing workspace file after entered) (two : Closing workspace file after' entered') :
    after = after' ∧ entered = entered' := by
  cases one with
  | gone missing =>
    cases two with
    | gone _ => exact ⟨rfl, rfl⟩
    | settled text _ => cases missing.symm.trans text
  | settled text refreshing =>
    cases two with
    | gone missing => cases missing.symm.trans text
    | settled text' refreshing' =>
      cases text.symm.trans text'
      obtain ⟨rfl, rfl⟩ := refreshing.unique refreshing'
      exact ⟨rfl, rfl⟩

theorem Performing.unique {action : Action} {after after' : Workspace}
    {entered entered' : List SourceId} (one : Performing workspace action after entered)
    (two : Performing workspace action after' entered') :
    after = after' ∧ entered = entered' := by
  cases one with
  | openWith opening =>
    cases two with
    | openWith opening' => exact opening.unique opening'
  | edit isOpen opening =>
    cases two with
    | edit _ opening' => exact opening.unique opening'
    | editUnknown unknown => cases isOpen.symm.trans unknown
  | editUnknown unknown =>
    cases two with
    | edit isOpen _ => cases isOpen.symm.trans unknown
    | editUnknown _ => exact ⟨rfl, rfl⟩
  | close isOpen closing =>
    cases two with
    | close _ closing' => exact closing.unique closing'
    | closeUnknown unknown => cases isOpen.symm.trans unknown
  | closeUnknown unknown =>
    cases two with
    | close isOpen _ => cases isOpen.symm.trans unknown
    | closeUnknown _ => exact ⟨rfl, rfl⟩
  | write =>
    cases two
    exact ⟨rfl, rfl⟩
  | delete =>
    cases two
    exact ⟨rfl, rfl⟩

end Recursion

/-! ## Each file is loaded once -/

theorem mem_unread_iff : file ∈ workspace.unread ↔
    file ∈ workspace.stored ∧ workspace.graph.handleOf? file = none := by
  rw [unread, List.mem_filter, Option.isNone_iff_eq_none]

/-- The files `entered` had no node before, and each of them has one afterwards. -/
structure Enters (before after : Workspace) (entered : List SourceId) : Prop where
  nodup : entered.Nodup
  unread : ∀ file ∈ entered, file ∈ before.unread
  read : ∀ file ∈ entered, file ∉ after.unread
  fewer : ∀ file ∈ after.unread, file ∈ before.unread

namespace Enters

variable {before middle after : Workspace} {entered entered' : List SourceId}

theorem refl (workspace : Workspace) : Enters workspace workspace [] where
  nodup := List.nodup_nil
  unread := fun _ member => nomatch member
  read := fun _ member => nomatch member
  fewer := fun _ member => member

theorem append (first : Enters before middle entered) (second : Enters middle after entered') :
    Enters before after (entered ++ entered') where
  nodup := by
    refine List.nodup_append.mpr ⟨first.nodup, second.nodup, ?_⟩
    rintro file early _ late rfl
    exact first.read file early (second.unread file late)
  unread := by
    intro file member
    rcases List.mem_append.mp member with early | late
    · exact first.unread file early
    · exact first.fewer file (second.unread file late)
  read := by
    intro file member left
    rcases List.mem_append.mp member with early | late
    · exact first.read file early (second.fewer file left)
    · exact second.read file late left
  fewer := fun file member => first.fewer file (second.fewer file member)

theorem stored (enters : Enters before after entered) : entered ⊆ before.stored :=
  fun file member => (mem_unread_iff.mp (enters.unread file member)).1

/-- Which files have a node is told by the graph and the files alone. -/
theorem congr {final : Workspace} (enters : Enters before after entered)
    (files : final.files = after.files) (graph : final.graph = after.graph) :
    Enters before final entered := by
  have same : final.unread = after.unread := by
    rw [Workspace.unread, Workspace.unread, Workspace.stored, Workspace.stored, files, graph]
  exact ⟨enters.nodup, enters.unread, same ▸ enters.read, same ▸ enters.fewer⟩

/-- A reference to a file that has a node already. -/
theorem share {owed : List Handle} (sound : Sound workspace owed)
    (alive : ∀ handle ∈ owed, workspace.graph.isAlive handle = true)
    (listed : file ∈ workspace.stored) :
    Enters workspace (workspace.retaining file) [] where
  nodup := List.nodup_nil
  unread := fun _ member => nomatch member
  read := fun _ member => nomatch member
  fewer := by
    intro other member
    have grows := Grows.retain sound listed
    rw [mem_unread_iff, ← Option.isNone_iff_eq_none] at member ⊢
    exact ⟨grows.stored ▸ member.1, grows.handleOf?_isNone sound (sound.retain alive file) member.2⟩

/-- The first reference to a file, which enters it. -/
theorem fetch {owed : List Handle} (sound : Sound workspace owed)
    (alive : ∀ handle ∈ owed, workspace.graph.isAlive handle = true)
    (listed : file ∈ workspace.stored) (new : (workspace.graph.retain file).isNew = true) :
    Enters workspace (workspace.retaining file) [file] where
  nodup := List.nodup_singleton file
  unread := by
    intro other member
    rw [List.mem_singleton.mp member, mem_unread_iff,
      IncludeGraph.handleOf?_eq_none_iff sound.graph]
    exact ⟨listed, (IncludeGraph.retain_gains sound.graph file).absent new⟩
  read := by
    intro other member left
    rw [List.mem_singleton.mp member, mem_unread_iff] at left
    have gains := IncludeGraph.retain_gains sound.graph file
    exact (IncludeGraph.handleOf?_eq_none_iff gains.good).mp left.2 _ gains.named
  fewer := (share sound alive listed).fewer

end Enters

/-! ## The bounded recursion -/

variable [Alphabets]

/-- Loading ends the way the unbounded recursion does, if it may go deep enough. -/
def LoadsOnce (depth : Nat) (load : Workspace → Handle → SourceId → Workspace) : Prop :=
  ∀ {workspace owed} (handle : Handle) (file : SourceId), Sound workspace owed →
    (∀ other ∈ owed, workspace.graph.isAlive other = true) →
    workspace.unread.length < depth →
    ∃ entered, Loading workspace handle file (load workspace handle file) entered ∧
      Enters workspace (load workspace handle file) entered

theorem link_linking (old : List Handle) {depth : Nat}
    {load : Workspace → Handle → SourceId → Workspace} (well : LoadsWell depth load)
    (once : LoadsOnce depth load) {owed : List Handle} (sound : Sound workspace owed)
    (alive : ∀ handle ∈ owed, workspace.graph.isAlive handle = true)
    (listed : targets ⊆ workspace.stored) (enough : workspace.unread.length ≤ depth) :
    ∃ entered, Linking old workspace targets (link load old workspace targets) entered ∧
      Enters workspace (link load old workspace targets).workspace entered := by
  induction targets generalizing workspace owed with
  | nil => exact ⟨[], .done, .refl workspace⟩
  | cons target rest ih =>
    obtain ⟨listed, listed'⟩ := List.cons_subset.mp listed
    unfold link
    cases found : workspace.edgeTo? old target with
    | some handle =>
      obtain ⟨entered, linking, enters⟩ := ih sound alive listed' enough
      exact ⟨entered, .keep found linking, enters⟩
    | none =>
      have first := (Links.fetch well sound alive listed : Links _ old _ _ _ _ _)
      have onward := ih first.sound (first.owed_alive alive) (first.grows.stored.symm ▸ listed')
        (Nat.le_trans (first.grows.unread_le sound first.sound) enough)
      cases new : (workspace.graph.retain target).isNew with
      | false =>
        simp only [new, Bool.false_eq_true, if_false] at onward ⊢
        obtain ⟨entered, linking, enters⟩ := onward
        exact ⟨entered, .share found new linking, (Enters.share sound alive listed).append enters⟩
      | true =>
        -- a file that gets its first node leaves one file less to load, and so one level less
        have entering := Enters.fetch sound alive listed new
        have absent := (mem_unread_iff.mp (entering.unread target List.mem_cons_self)).2
        have less := unread_retain_lt sound alive listed absent
        obtain ⟨below, loading, inside⟩ := once (workspace.graph.retain target).handle target
          (sound.retain alive target) (sound.retained_alive alive target)
          (Nat.lt_of_lt_of_le less enough)
        simp only [new, if_true] at onward ⊢
        obtain ⟨entered, linking, enters⟩ := onward
        exact ⟨_, .fetch found new loading linking, (entering.append inside).append enters⟩

theorem load_loadsOnce (depth : Nat) : LoadsOnce depth (load depth) := by
  induction depth with
  | zero => exact fun _ _ _ _ enough => absurd enough (Nat.not_lt_zero _)
  | succ depth ih =>
    intro workspace owed handle file sound alive enough
    unfold load
    cases text : workspace.currentText? file with
    | none => exact ⟨[], .unreadable text, .refl workspace⟩
    | some content =>
      obtain ⟨entered, linking, enters⟩ := link_linking [] (load_loads depth) ih sound alive
        (workspace.targets_subset file content true) (Nat.le_of_lt_succ enough)
      exact ⟨entered, .read text linking, enters.congr rfl rfl⟩

/-! ## Steps and runs -/

theorem build_building {owed : List Handle} (sound : Sound workspace owed)
    (alive : ∀ handle ∈ owed, workspace.graph.isAlive handle = true) (file : SourceId)
    (text : Text) (skipStatic : Bool) (old : List Handle) :
    ∃ entered, Building workspace file text skipStatic old
        (workspace.build file text skipStatic old) entered ∧
      Enters workspace (workspace.build file text skipStatic old).workspace entered := by
  obtain ⟨entered, linking, enters⟩ := link_linking old (load_loads workspace.loadDepth)
    (load_loadsOnce workspace.loadDepth) sound alive
    (workspace.targets_subset file text skipStatic) workspace.unread_le_loadDepth
  exact ⟨entered, .built linking, enters⟩

theorem refresh_refreshing {owed : List Handle} (sound : Sound workspace owed)
    (alive : ∀ handle ∈ owed, workspace.graph.isAlive handle = true) (file : SourceId)
    (text : Text) :
    ∃ entered, Refreshing workspace file text (workspace.refresh file text) entered ∧
      Enters workspace (workspace.refresh file text).workspace entered := by
  unfold refresh
  cases found : workspace.nodeOf? file with
  | none => exact ⟨[], .absent (by rw [found]; rfl), .refl workspace⟩
  | some handle =>
    dsimp only
    cases named : workspace.graph.node? handle with
    | none => exact ⟨[], .absent (by rw [found]; exact named), .refl workspace⟩
    | some node =>
      obtain ⟨entered, building, enters⟩ := build_building sound alive node.file text true
        (workspace.records.edges handle)
      exact ⟨entered, .rebuilt found named building, enters.congr rfl rfl⟩

theorem openWith_opening (sound : Sound workspace []) (file : SourceId) (text : Text) :
    ∃ entered, Opening workspace file text (workspace.openWith file text) entered ∧
      entered.Nodup ∧ entered ⊆ workspace.stored := by
  have builds := build_builds sound (by simp) file text false (workspace.documentEdges file)
  obtain ⟨entered, building, enters⟩ := build_building sound (by simp) file text false
    (workspace.documentEdges file)
  rw [openWith_eq]
  generalize workspace.build file text false (workspace.documentEdges file) = built at *
  obtain ⟨entered', refreshing, enters'⟩ := refresh_refreshing (builds.placed_sound text)
    (builds.dropped_alive sound) file text
  have placed : Enters workspace (built.placed file text) entered := enters.congr rfl rfl
  have both := placed.append enters'
  exact ⟨_, .opened building refreshing, both.nodup, both.stored⟩

theorem close_closing {after : Workspace} (sound : Sound workspace [])
    (closed : workspace.close file = .ok after) :
    ∃ entered, Closing workspace file after entered ∧
      entered.Nodup ∧ entered ⊆ workspace.stored := by
  have releases := left_releases sound file
  have current := left_currentText? sound file
  rcases close_cases sound closed with ⟨text, rfl⟩ | ⟨content, text, rfl⟩
  · exact ⟨[], .gone (current.trans text), List.nodup_nil, List.nil_subset _⟩
  · obtain ⟨entered, refreshing, enters⟩ :=
      refresh_refreshing releases.sound (by simp) file content
    have stored : (workspace.left file).stored = workspace.stored := by
      rw [Workspace.stored, Workspace.stored, releases.shrinks.files]
    exact ⟨entered, .settled (current.trans text) refreshing, enters.nodup, stored ▸ enters.stored⟩

theorem perform_performing (sound : Sound workspace []) (action : Action) :
    ∃ entered, Performing workspace action (workspace.perform action) entered ∧
      entered.Nodup ∧ entered ⊆ workspace.stored := by
  cases action with
  | openWith file text =>
    obtain ⟨entered, opening, once⟩ := openWith_opening sound file text
    exact ⟨entered, .openWith opening, once⟩
  | edit file text =>
    rw [perform_edit]
    cases isOpen : workspace.isOpen file with
    | true =>
      obtain ⟨entered, opening, once⟩ := openWith_opening sound file text
      exact ⟨entered, .edit isOpen opening, once⟩
    | false => exact ⟨[], .editUnknown isOpen, List.nodup_nil, List.nil_subset _⟩
  | close file =>
    rcases perform_close workspace file with ⟨unknown, same⟩ | ⟨isOpen, closed⟩
    · rw [same]
      exact ⟨[], .closeUnknown unknown, List.nodup_nil, List.nil_subset _⟩
    · obtain ⟨entered, closing, once⟩ := close_closing sound closed
      exact ⟨entered, .close isOpen closing, once⟩
  | write path text => exact ⟨[], .write, List.nodup_nil, List.nil_subset _⟩
  | delete path => exact ⟨[], .delete, List.nodup_nil, List.nil_subset _⟩

/--
After any run, every further step ends, and in one way only, although nothing bounds the recursion:
it leads to what the bounded recursion computes, and it loads each file at most once and none but
files of the store, whatever includes whatever.
-/
theorem run_loads_once (config : Config) (files : FileStore) (actions : List Action)
    (action : Action) :
    ∃ entered : List SourceId,
      (∀ after loaded, Performing ((start config files).run actions) action after loaded ↔
        after = ((start config files).run actions).perform action ∧ loaded = entered) ∧
      entered.Nodup ∧
      ∀ file ∈ entered, ∃ entry ∈ ((start config files).run actions).files.entries,
        file = SourceId.ofPath entry.1 := by
  have settled := run_settled (start_settled config files) actions
  generalize (start config files).run actions = workspace at *
  obtain ⟨entered, performing, nodup, stored⟩ := perform_performing settled.sound action
  refine ⟨entered, fun after loaded => ⟨fun other => ?_, ?_⟩, nodup, fun file member => ?_⟩
  · exact other.unique performing
  · rintro ⟨rfl, rfl⟩
    exact performing
  · obtain ⟨entry, listed, same⟩ := List.mem_map.mp (stored member)
    exact ⟨entry, listed, same.symm⟩

end PawnScope.Workspace

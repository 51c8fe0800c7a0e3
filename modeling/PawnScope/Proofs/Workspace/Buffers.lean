import PawnScope.Identifier.European
import PawnScope.Proofs.Workspace.Run
/-!
Whose text the node of an open document has been read from. Giving a document a text brings its node
up to date under every spelling of the id; loading a new node looks the buffer up by the id of the
node, which is the normal form. So the two agree for a document that is open under its normal id, and
for any other as long as the node is the one that stood for it when it was last given a text.
-/

namespace PawnScope.Workspace

variable {workspace before after : Workspace} {action : Action} {file : SourceId}
  {node : Option Handle} {handle : Handle}

/-- No two open documents are one file. -/
def Apart (workspace : Workspace) : Prop :=
  ∀ one two, workspace.isOpen one = true → workspace.isOpen two = true →
    one.normal = two.normal → one = two

/--
The node that an action leaves followed: the node of the file, if the action gives the file a text,
or if it was followed before.
-/
def follow (after : Workspace) (action : Action) (file : SourceId) (node : Option Handle) :
    Option Handle :=
  if action.gives file = true ∨ node = after.nodeOf? file then after.nodeOf? file else none

/-- The node of a file, if it has been that without a break since the file was last given a text. -/
def followed [Alphabets] (file : SourceId) : Workspace → Option Handle → List Action → Option Handle
  | _, node, [] => node
  | workspace, node, action :: rest =>
    followed file (workspace.perform action) ((workspace.perform action).follow action file node)
      rest

/-- The text from which the node of an open document has been read. -/
def nodeText? (workspace : Workspace) (file : SourceId) (buffer : Text) (isFollowed : Prop)
    [Decidable isFollowed] : Option Text :=
  if file.normal = file ∨ isFollowed then some buffer
  else workspace.files.text? file.normal.toPath

theorem nodeText?_congr {one two : Prop} [Decidable one] [Decidable two] (same : one ↔ two)
    (file : SourceId) (buffer : Text) :
    workspace.nodeText? file buffer one = workspace.nodeText? file buffer two := by
  simp only [nodeText?, same]

theorem follow_eq_some_iff (found : after.nodeOf? file = some handle) :
    after.follow action file node = some handle ↔
      action.gives file = true ∨ node = some handle := by
  unfold follow
  rw [found]
  constructor
  · intro same
    split at same
    · next either => exact either
    · cases same
  · intro either
    rw [if_pos either]

theorem nodeOf?_of_follow (same : after.follow action file node = some handle) :
    after.nodeOf? file = some handle := by
  unfold follow at same
  split at same
  · exact same
  · cases same

/-- What is kept of one file along a run: the followed node is the node of the file, and if the file
is open, its node has been read from the text that `nodeText?` says. -/
structure Answers [Alphabets] (file : SourceId) (node : Option Handle) (workspace : Workspace) : Prop where
  followed : ∀ {handle}, node = some handle →
    workspace.graph.file? handle = some file.normal
  read : ∀ {document handle}, workspace.documents.get? file = some document →
    workspace.graph.file? handle = some file.normal →
    (workspace.records.get? handle).map FileRecord.unlinked =
      (workspace.nodeText? file document.buffer.chars (node = some handle)).map
        fun text => workspace.outlineRecord file.normal text true

/-- In a store of files apart, no document is open under the normal id of another. -/
theorem Apart.normal_closed (apart : Apart workspace) (isOpen : workspace.isOpen file = true)
    (spelled : file.normal ≠ file) : workspace.documents.get? file.normal = none := by
  cases found : workspace.documents.get? file.normal with
  | none => rfl
  | some document =>
    have same := apart file.normal file (isOpen_of_get? found) isOpen file.normal_normal
    exact absurd same spelled

namespace Answers

/-- A change to one document does not break this for a file that is another. -/
theorem elsewhere [Alphabets] {other : SourceId} {content : Option Text} {document : Document}
    (answers : Answers file node before) (changes : Changes before other content after)
    (apart : Apart after) (differ : file.normal ≠ other.normal)
    (open' : after.documents.get? file = some document)
    (same : before.documents.get? file = some document)
    (named : after.graph.file? handle = some file.normal) :
    (after.records.get? handle).map FileRecord.unlinked =
      (after.nodeText? file document.buffer.chars (node = some handle)).map
        fun text => after.outlineRecord file.normal text true := by
  have differ' : file.normal ≠ other := by
    rintro rfl
    exact differ file.normal_normal.symm
  cases changes.others named differ' differ with
  | kept early record =>
    rw [record, answers.read same early, nodeText?, nodeText?, changes.files,
      outlineRecord_congr changes.search changes.files]
  | new dead mirrors =>
    -- a node that is new cannot have been followed
    have fresh : node ≠ some handle := by
      intro followed
      rw [IncludeGraph.isAlive_of_file? (answers.followed followed)] at dead
      cases dead
    obtain ⟨x, known, record⟩ := mirrors
    rw [named] at known
    cases known
    rw [record, nodeText?, currentText?]
    by_cases normal : file.normal = file
    · rw [if_pos (.inl normal), normal, open']
    · rw [if_neg (not_or.mpr ⟨normal, fresh⟩), apart.normal_closed (isOpen_of_get? open') normal]

theorem step [Alphabets] (answers : Answers file node before) (filed : Filed before)
    (apart : Apart before) (apart' : Apart after) (sound : Sound after [])
    (effect : Effect before action after) :
    Answers file (after.follow action file node) after := by
  have filed' := effect.filed filed
  refine ⟨fun same => (filed'.nodeOf?_eq_some_iff sound).mp (nodeOf?_of_follow same), ?_⟩
  intro document handle open' named
  have found := (filed'.nodeOf?_eq_some_iff sound).mpr named
  have followed : after.follow action file node = some handle ↔
      action.gives file = true ∨ node = some handle := follow_eq_some_iff found
  cases effect with
  | idle fails =>
    have silent : ¬ action.gives file = true := by
      intro gives
      have shut := fails file gives
      rw [isOpen_of_get? open'] at shut
      cases shut
    rw [nodeText?_congr (followed.trans (or_iff_right silent))]
    exact answers.read open' named
  | @given other text record after gives documents outline changes =>
    by_cases self : file = other
    · subst self
      rw [documents, Table.get?_insert_self] at open'
      cases open'
      have told := changes.own filed.spelled rfl named
      rw [nodeText?, if_pos (.inr (followed.mpr (.inl ((gives file).mpr rfl))))]
      exact told
    · have same : before.documents.get? file = some document := by
        rwa [documents, Table.get?_insert_of_ne _ _ self] at open'
      have isOpen : after.isOpen other = true := by
        rw [Workspace.isOpen, Table.contains, documents, Table.get?_insert_self]
        rfl
      have differ : file.normal ≠ other.normal :=
        fun equal => self (apart' file other (isOpen_of_get? open') isOpen equal)
      have silent : ¬ action.gives file = true := fun gives' => self ((gives file).mp gives')
      rw [nodeText?_congr (followed.trans (or_iff_right silent))]
      exact answers.elsewhere changes apart' differ open' same named
  | @closed other after silent isOpen documents changes =>
    have self : file ≠ other := by
      rintro rfl
      rw [documents, Table.get?_erase_self] at open'
      cases open'
    have same : before.documents.get? file = some document := by
      rwa [documents, Table.get?_erase_of_ne _ self] at open'
    have differ : file.normal ≠ other.normal :=
      fun equal => self (apart file other (isOpen_of_get? same) isOpen equal)
    have silent' : ¬ action.gives file = true := by simp [silent file]
    rw [nodeText?_congr (followed.trans (or_iff_right silent'))]
    exact answers.elsewhere changes apart' differ open' same named

theorem run [Alphabets] {actions : List Action} (answers : Answers file node workspace)
    (settled : Settled workspace) (filed : Filed workspace)
    (fixed : ∀ action ∈ actions, action.keepsFiles = true)
    (apart : ∀ count, Apart (workspace.run (actions.take count))) :
    Filed (workspace.run actions) ∧
      Answers file (Workspace.followed file workspace node actions) (workspace.run actions) := by
  induction actions generalizing workspace node with
  | nil => exact ⟨filed, answers⟩
  | cons action rest ih =>
    have effect := perform_effect settled.sound (fixed action List.mem_cons_self)
    have settled' := perform_settled settled action
    have here : Apart workspace := apart 0
    have next : Apart (workspace.perform action) := apart 1
    exact ih (answers.step filed here next settled'.sound effect) settled' (effect.filed filed)
      (fun other member => fixed other (List.mem_cons_of_mem _ member))
      (fun count => apart (count + 1))

end Answers

theorem start_filed (config : Config) (files : FileStore) : Filed (start config files) := by
  intro handle x named
  cases named

theorem start_answers [Alphabets] (config : Config) (files : FileStore) (file : SourceId) :
    Answers file none (start config files) where
  followed := fun same => nomatch same
  read := fun open' _ => nomatch open'

/--
The node of an open document has been read from the buffer if the document is open under its normal
id, or if that node has stood for it ever since it was last given a text; otherwise it has been read
from the file.
-/
theorem run_node_of_open [Alphabets] (config : Config) (files : FileStore) (actions : List Action)
    (fixed : ∀ action ∈ actions, action.keepsFiles = true)
    (apart : ∀ count, Apart ((start config files).run (actions.take count)))
    {file : SourceId} {document : Document} {handle : Handle}
    (open' : ((start config files).run actions).documents.get? file = some document)
    (found : ((start config files).run actions).nodeOf? file = some handle) :
    ((start config files).run actions).graph.file? handle = some file.normal ∧
    (file.normal = file ∨ followed file (start config files) none actions = some handle →
      (((start config files).run actions).records.get? handle).map FileRecord.unlinked =
        some (((start config files).run actions).outlineRecord file.normal document.buffer.chars
          true)) ∧
    (file.normal ≠ file ∧ followed file (start config files) none actions ≠ some handle →
      (((start config files).run actions).records.get? handle).map FileRecord.unlinked =
        (((start config files).run actions).files.text? file.normal.toPath).map fun text =>
          ((start config files).run actions).outlineRecord file.normal text true) := by
  have settled := run_settled (start_settled config files) actions
  obtain ⟨filed, answers⟩ := (start_answers config files file).run (start_settled config files)
    (start_filed config files) fixed apart
  have named := (filed.nodeOf?_eq_some_iff settled.sound).mp found
  have read := answers.read open' named
  refine ⟨named, fun buffered => ?_, fun ⟨spelled, lost⟩ => ?_⟩
  · rw [read, nodeText?, if_pos buffered]
    rfl
  · rw [read, nodeText?, if_neg (not_or.mpr ⟨spelled, lost⟩)]

/-! ## A spelling that new nodes do not see -/

/-- Include files are searched in one directory. -/
def incConfig : Config :=
  { Config.default with includePaths := [⟨"/inc".toList⟩] }

/-- One include file. -/
def incFiles : FileStore :=
  ⟨[(⟨"/inc/a.inc".toList⟩, "new disk;".toList)]⟩

/-- The include file is opened as a URI. -/
def openIncluded : Action :=
  .openWith ⟨"file:///inc/a.inc".toList⟩ "new buf;".toList

/-- A file that includes it is opened. -/
def openIncluder : Action :=
  .openWith ⟨"/src/m.sma".toList⟩ "#include <a>".toList

theorem apart_of_entries (workspace : Workspace)
    (distinct : ∀ one ∈ workspace.documents.entries, ∀ two ∈ workspace.documents.entries,
      one.1.normal = two.1.normal → one.1 = two.1) : Apart workspace := by
  intro one two open' openToo same
  obtain ⟨document, found⟩ := Option.isSome_iff_exists.mp open'
  obtain ⟨document', found'⟩ := Option.isSome_iff_exists.mp openToo
  exact distinct _ (Table.mem_of_get? found) _ (Table.mem_of_get? found') same

theorem apart_of_two [Alphabets] (one two : Action) (start : Apart workspace)
    (first : Apart (workspace.run [one])) (both : Apart (workspace.run [one, two])) :
    ∀ count, Apart (workspace.run ([one, two].take count))
  | 0 => start
  | 1 => first
  | _ + 2 => by simpa using both

open scoped Identifier.European

/-- If the node is there already, it is read from the buffer. -/
theorem run_node_of_open_after :
    (((start incConfig incFiles).run [openIncluder, openIncluded]).records.get? ⟨0, 0⟩).map
        FileRecord.unlinked =
      some (((start incConfig incFiles).run [openIncluder, openIncluded]).outlineRecord
        ⟨"/inc/a.inc".toList⟩ "new buf;".toList true) := by
  have texts : (((start incConfig incFiles).run [openIncluder, openIncluded]).documents.get?
      ⟨"file:///inc/a.inc".toList⟩).map (·.buffer.chars) = some "new buf;".toList := by
    decide +kernel
  obtain ⟨document, open', chars⟩ := Option.map_eq_some_iff.mp texts
  have apart := apart_of_two openIncluder openIncluded
    (apart_of_entries (start incConfig incFiles) (by decide +kernel))
    (apart_of_entries _ (by decide +kernel)) (apart_of_entries _ (by decide +kernel))
  have found : ((start incConfig incFiles).run [openIncluder, openIncluded]).nodeOf?
      ⟨"file:///inc/a.inc".toList⟩ = some ⟨0, 0⟩ := by decide +kernel
  obtain ⟨_, buffered, _⟩ := run_node_of_open incConfig incFiles [openIncluder, openIncluded]
    (by decide) apart open' found
  have normal : SourceId.normal ⟨"file:///inc/a.inc".toList⟩ = ⟨"/inc/a.inc".toList⟩ := by
    decide +kernel
  rw [← chars, ← normal]
  exact buffered (.inr (by decide +kernel))

/-- If the node is new, it is read from the file: the buffer does not win under every spelling. -/
theorem run_node_of_open_before :
    ¬ ∀ (config : Config) (files : FileStore) (actions : List Action),
      (∀ action ∈ actions, action.keepsFiles = true) →
      (∀ count, Apart ((start config files).run (actions.take count))) →
      ∀ (file : SourceId) (document : Document) (handle : Handle),
      ((start config files).run actions).documents.get? file = some document →
      ((start config files).run actions).nodeOf? file = some handle →
      (((start config files).run actions).records.get? handle).map FileRecord.unlinked =
        some (((start config files).run actions).outlineRecord file.normal document.buffer.chars
          true) := by
  intro claimed
  have texts : (((start incConfig incFiles).run [openIncluded, openIncluder]).documents.get?
      ⟨"file:///inc/a.inc".toList⟩).map (·.buffer.chars) = some "new buf;".toList := by
    decide +kernel
  obtain ⟨document, open', chars⟩ := Option.map_eq_some_iff.mp texts
  have apart := apart_of_two openIncluded openIncluder
    (apart_of_entries (start incConfig incFiles) (by decide +kernel))
    (apart_of_entries _ (by decide +kernel)) (apart_of_entries _ (by decide +kernel))
  have same := claimed incConfig incFiles [openIncluded, openIncluder] (by decide) apart
    ⟨"file:///inc/a.inc".toList⟩ document ⟨0, 0⟩ open' (by decide +kernel)
  rw [chars] at same
  exact absurd same (by decide +kernel)

end PawnScope.Workspace

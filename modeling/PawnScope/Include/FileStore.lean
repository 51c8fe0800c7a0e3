import PawnScope.Failure
/-!
A store of source texts by path. Paths with the same components are the same key.
-/

namespace PawnScope

/-- Files by path; of two entries for one path the first counts. -/
structure FileStore where
  entries : List (Path × Text)
deriving DecidableEq, Repr

namespace FileStore

def empty : FileStore :=
  ⟨[]⟩

def text? (store : FileStore) (path : Path) : Option Text :=
  (store.entries.find? (·.1.sameAs path)).map Prod.snd

def contains (store : FileStore) (path : Path) : Bool :=
  (store.text? path).isSome

/-- The text at a path; a path that has none cannot be read. -/
def read (store : FileStore) (path : Path) : Except Failure Text :=
  match store.text? path with
  | some text => .ok text
  | none => .error (.unreadable path)

/-- The entries for all other paths. -/
def others (store : FileStore) (path : Path) : List (Path × Text) :=
  store.entries.filter (!·.1.sameAs path)

/-- Put a text at a path, in the place of one that is there. -/
def insert (store : FileStore) (path : Path) (text : Text) : FileStore :=
  ⟨(path, text) :: store.others path⟩

def erase (store : FileStore) (path : Path) : FileStore :=
  ⟨store.others path⟩

/-- A store filled in order; a later text for a path counts. -/
def ofList (entries : List (Path × Text)) : FileStore :=
  entries.foldl (fun store entry => store.insert entry.1 entry.2) empty

end FileStore

end PawnScope
